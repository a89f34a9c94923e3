import Coord.Kvt.ShippingInv

/-!
# No record below the watermark is missing

A record at or below a watermark is in the shard that covers it, in every run whose steps keep to the order that the
watermark relies on.  The node does not check that order: a Region may be retired while its outbox holds records that
no shard has, a shard may be bounded below what is decided or with no shard after it, a shard may refuse a record and
take the next one.  Each of them puts a watermark above a record that is nowhere.
-/

namespace Coord.Kvt.Shipping

open Coord.Lib Coord.Storage Coord.Raft Store Table DecisionApply List Function

/-! ### The condition -/

def EndsAbove (s : Store) (e : Entry) : Prop :=
  match e.payload with
  | .normal (.commitLogShard (.setEnd _ endTs _)) => s.seq.last < endTs
  | _ => True

instance (s : Store) (e : Entry) : Decidable (EndsAbove s e) := by
  obtain ⟨logId, payload⟩ := e
  unfold EndsAbove
  dsimp only
  split <;> infer_instance

/-- The Region has applied every decision up to `w`, in the words of the decision log. -/
def Pipeline.AppliedUpTo (p : Pipeline) (r w : ℕ) : Prop :=
  ∀ d ∈ p.decisions, d.commitTs ≤ w → d.commitTs ≤ (p.region r).lastAppliedDecisionTs

instance (p : Pipeline) (r w : ℕ) : Decidable (p.AppliedUpTo r w) := inferInstanceAs (Decidable (∀ _ ∈ _, _))

/-- A scan that is about to give its watermark has read a table that reaches beyond the last decision. -/
def WatermarkScan.ReachesLast (s : WatermarkScan) : Prop :=
  match s.phase with
  | .outboxes _ table [] _ => Watch.Reaches table s.decisionLast
  | _ => True

instance (s : WatermarkScan) : Decidable s.ReachesLast := by
  unfold WatermarkScan.ReachesLast
  split <;> infer_instance

/-- **What the watermark relies on.**  The first shard is opened at `1` and shards are bounded above the last decision;
a shard takes every record of a batch; the table reaches beyond the decisions when a watermark is given; a Region joins
with everything applied that a watermark may cover, and leaves when its outbox holds nothing that a shard still has to
get. -/
def Orderly (cfg : Config) (p : Pipeline) : Step → Prop
  | .system _ e => OpensAtOne p.system e ∧ EndsAbove p.system e
  | .ship i _ => ∀ t ∈ p.ships[i]?, ∀ batch ∈ t.batches.head?, ∀ r ∈ batch,
    r.encode cfg.size t.maxTxnBytes = .ok r
  | .scan i => ∀ s ∈ p.scans[i]?, s.ReachesLast
  | .attach r => r ∈ p.assembled ∨
    (∀ w ∈ p.watermarks, p.AppliedUpTo r w) ∧ ∀ s ∈ p.scans, p.AppliedUpTo r s.decisionLast
  | .retire r => ∀ row ∈ (p.region r).commitLog.rows, p.Settled row.2
  | _ => True

instance (cfg : Config) (p : Pipeline) (s : Step) : Decidable (Orderly cfg p s) := by
  unfold Orderly
  split <;> infer_instance

/-! ### Decisions -/

namespace Pipeline

variable {p p' : Pipeline}

lemma mem_decisions (h : p.system.seq.Ordered) {d : SequencerDecision} :
    d ∈ p.decisions ↔ p.system.seq.decisions.get d.commitTs = some d := by
  unfold decisions
  constructor
  · intro hd
    obtain ⟨⟨ts, d'⟩, hrow, rfl⟩ := mem_map.1 hd
    have hget := mem_rows.1 hrow
    rw [(h ts d' hget).1]
    exact hget
  · intro hget
    exact mem_map.2 ⟨(d.commitTs, d), mem_rows.2 hget, rfl⟩

lemma decided_iff (h : p.system.seq.Ordered) {ts : ℕ} : p.Decided ts ↔ ∃ d ∈ p.decisions, d.commitTs = ts := by
  constructor
  · rintro ⟨d, hd⟩
    obtain rfl := (h ts d hd).1
    exact ⟨d, (mem_decisions h).2 hd, rfl⟩
  · rintro ⟨d, hd, rfl⟩
    exact ⟨d, (mem_decisions h).1 hd⟩

lemma AppliedUpTo.caught {r w : ℕ} (ha : p.AppliedUpTo r w) (h : p.system.seq.Ordered) : p.Caught r w := by
  intro ts hts hle
  obtain ⟨d, hd, rfl⟩ := (decided_iff h).1 hts
  exact ha d hd hle

lemma pairwise_decisions (h : p.system.seq.Ordered) : p.decisions.Pairwise fun a b => a.commitTs < b.commitTs := by
  unfold decisions
  rw [pairwise_map]
  refine p.system.seq.decisions.sorted.imp_of_mem ?_
  rintro ⟨k, a⟩ ⟨k', b⟩ ha hb hlt
  rw [(h k a (mem_rows.1 ha)).1, (h k' b (mem_rows.1 hb)).1]
  exact hlt

lemma next_decision (h : p.system.seq.Ordered) {after ts : ℕ} (hts : p.Decided ts) (hlt : after < ts) :
    ∃ n, ((sequencerDecisionsAfter p.decisions after 1).head?).map SequencerDecision.commitTs = some n ∧
      after < n ∧ n ≤ ts := by
  obtain ⟨d, hd, rfl⟩ := (decided_iff h).1 hts
  have hmem : d ∈ p.decisions.filter fun d => decide (after < d.commitTs) :=
    mem_filter.2 ⟨hd, decide_eq_true hlt⟩
  have hpair := (pairwise_decisions h).filter fun d => decide (after < d.commitTs)
  unfold sequencerDecisionsAfter
  cases hl : p.decisions.filter fun d => decide (after < d.commitTs) with
  | nil =>
    rw [hl] at hmem
    cases hmem
  | cons n rest =>
    rw [hl] at hmem hpair
    have hn : n ∈ p.decisions.filter fun d => decide (after < d.commitTs) := hl ▸ mem_cons_self
    refine ⟨n.commitTs, rfl, of_decide_eq_true (mem_filter.1 hn).2, ?_⟩
    rcases mem_cons.1 hmem with rfl | hrest
    · exact le_rfl
    · exact ((pairwise_cons.1 hpair).1 d hrest).le

/-! ### Keeping the invariant -/

lemma Stored.frame (hp : p.Stored) (h : p.Later p') (hvalid : p'.table.Valid 1) (hordered : p'.system.seq.Ordered)
    (hrecords : p'.records = p.records) (hregion : ∀ r, (p'.region r).commitLog = (p.region r).commitLog)
    (hshard : p'.shard = p.shard) (hrun : ∀ r ∈ p.assembled, r ∈ p'.assembled) : p'.Stored where
  valid := hvalid
  ordered := hordered
  record rec hrec := by
    rw [hrecords] at hrec
    obtain ⟨hid, hpos, hts, hcur⟩ := hp.record rec hrec
    exact ⟨hid, hpos, hts.later h, hcur.trans (h.cursor _)⟩
  unique := by
    rw [hrecords]
    exact hp.unique
  outbox r k rec hk := by
    rw [hregion] at hk
    rw [hrecords]
    exact hp.outbox r k rec hk
  there rec hrec := by
    rw [hrecords] at hrec
    rw [hregion]
    exact (hp.there rec hrec).imp_right fun hgc => hgc.trans_le h.table.gc
  rows := by
    rw [hrecords, hshard]
    exact hp.rows
  ship z' hz' rec hrec hlo hle := by
    rw [hrecords] at hrec
    have hle' : rec.commitTs ≤ p.shipped z'.shardId rec.regionId := by
      unfold shipped at hle ⊢
      rwa [hshard] at hle
    have hpos := (hp.record rec hrec).2.1
    -- a shard that has shipped something is in the old table
    obtain ⟨z, hz, hid⟩ := hp.opened z'.shardId rec.regionId (by omega)
    have hstart := h.table.startTs_eq hvalid hz hz' hid
    rw [← hid] at hle' ⊢
    rcases hp.ship z hz rec hrec (by omega) hle' with hgc | hrow
    · exact .inl (hgc.trans_le h.table.gc)
    · exact .inr (h.rows _ _ _ hrow)
  shipped_le shardId r := by
    have hsame : p'.shipped shardId r = p.shipped shardId r := by
      unfold shipped
      rw [hshard]
    rw [hsame]
    exact (hp.shipped_le shardId r).trans (h.cursor r)
  opened shardId r hne := by
    unfold shipped at hne
    rw [hshard] at hne
    obtain ⟨z, hz, hid⟩ := hp.opened shardId r hne
    obtain ⟨z', hz', hid', -⟩ := h.table.mem hz
    exact ⟨z', hz', hid'.trans hid⟩
  away rec hrec hnot := by
    rw [hrecords] at hrec
    exact (hp.away rec hrec fun hr => hnot (hrun _ hr)).later h (hp.record_le_last hrec)

lemma Inv.next (hi : p.Inv) (h : p.Later p') (hstored : p'.Stored)
    (hships : ∀ t ∈ p'.ships, t ∈ p.ships ∨ p'.TaskOk t) (hscans : ∀ s ∈ p'.scans, s ∈ p.scans ∨ p'.ScanOk s)
    (hmarks : ∀ w ∈ p'.watermarks, w ∈ p.watermarks ∨ w ≤ p'.last ∧ ∀ r, p'.Quiet r w)
    (hpublished : p'.system.commitWatermark = 0 ∨ p'.system.commitWatermark ∈ p'.watermarks) : p'.Inv where
  stored := hstored
  tasks t ht := (hships t ht).elim (fun hold => (hi.tasks t hold).later hi.stored h) id
  scans s hs := (hscans s hs).elim (fun hold => (hi.scans s hold).later hi.stored h (.inr ⟨s, hold, rfl⟩)) id
  watermarks w hw := by
    rcases hmarks w hw with hold | hnew
    · obtain ⟨hle, hquiet⟩ := hi.watermarks w hold
      exact ⟨hle.trans h.last_le, fun r => (hquiet r).later hi.stored h hle (.inl hold)⟩
    · exact hnew
  published := hpublished

lemma Inv.next_same (hi : p.Inv) (h : p.Later p') (hstored : p'.Stored) (hships : p'.ships = p.ships)
    (hscans : p'.scans = p.scans) (hmarks : p'.watermarks = p.watermarks)
    (hpublished : p'.system.commitWatermark = 0 ∨ p'.system.commitWatermark ∈ p.watermarks) : p'.Inv :=
  hi.next h hstored (fun _ ht => .inl (hships ▸ ht)) (fun _ hs => .inl (hscans ▸ hs)) (fun _ hw => .inl (hmarks ▸ hw))
    (hmarks.symm ▸ hpublished)

/-! ### The system Region -/

section

variable {cfg : Config}

lemma later_system {s : Store} (htable : p.table.Later s.shardTable) (hshards : SameShards p.last p.table s.shardTable)
    (hdecisions : p.system.seq.Extends s.seq) : p.Later { p with system := s } where
  table := htable
  shards := hshards
  decisions := hdecisions
  cursor _ := le_rfl
  shipped _ _ := le_rfl
  rows _ _ _ h := h
  kept _ h := h
  added _ h := .inl h
  joined _ h := .inl h

theorem inv_system (hi : p.Inv) {nowMs : ℤ} {e : Entry} (hopen : OpensAtOne p.system e) (hends : EndsAbove p.system e) :
    (step cfg p (.system nowMs e)).1.Inv := by
  dsimp only [step]
  split
  · exact hi
  next hpub =>
  dsimp only [applied]
  split
  · exact hi
  next s r he =>
  have hvalid := valid_one_applyEntry he hopen hi.stored.valid
  obtain ⟨hext, hordered⟩ := decisions_applyEntry he hi.stored.ordered
  obtain ⟨htable, hshards⟩ : p.table.Later s.shardTable ∧ SameShards p.last p.table s.shardTable := by
    rcases shardTable_applyEntry he with hsame | ⟨op, hp, hrun⟩
    · rw [hsame]
      exact ⟨.refl _, .refl _ _⟩
    rcases CommitLogShardOp.run_ok hrun with ⟨-, hfalse⟩ | ⟨-, hchange⟩
    · cases hfalse
    have hlater := hchange.later hi.stored.valid
    refine ⟨hlater, sameShards_of_later hlater hi.stored.valid hvalid fun i m m' hm hm' hzero => ?_⟩
    refine (hchange.endTs hm hm' hzero).imp_right ?_
    rintro ⟨shardId, nowMs, rfl⟩
    unfold EndsAbove at hends
    rw [hp] at hends
    exact hends
  have hlater := later_system htable hshards hext
  refine hi.next_same hlater (hi.stored.frame hlater hvalid hordered rfl (fun _ => rfl) rfl fun _ hr =>
    hr) rfl rfl rfl ?_
  have hwatermark : s.commitWatermark = p.system.commitWatermark := by
    refine watermark_applyEntry he fun w hp => hpub ?_
    unfold publishes
    rw [hp]
  dsimp only
  rw [hwatermark]
  exact hi.published

lemma inv_publish (hi : p.Inv) (w : ℕ) (logId : AppliedLogId) : (step cfg p (.publish w logId)).1.Inv := by
  dsimp only [step]
  split
  · next hw =>
    have hrow := (@moves_publishCommitWatermark cfg.mode logId p.system w).outer
    have htable : (p.system.publishCommitWatermark w logId).1.shardTable = p.table :=
      (congrArg shardTable hrow : _)
    have hseq : (p.system.publishCommitWatermark w logId).1.seq = p.system.seq := (congrArg Store.seq hrow : _)
    have hlater : p.Later { p with system := (p.system.publishCommitWatermark w logId).1 } := by
      refine later_system ?_ ?_ ?_
      · rw [htable]
        exact .refl _
      · rw [htable]
        exact .refl _ _
      · rw [hseq]
        exact .refl _
    have hvalid : (p.system.publishCommitWatermark w logId).1.shardTable.Valid 1 := by
      rw [htable]
      exact hi.stored.valid
    have hordered : (p.system.publishCommitWatermark w logId).1.seq.Ordered := by
      rw [hseq]
      exact hi.stored.ordered
    refine hi.next_same hlater (hi.stored.frame hlater hvalid hordered rfl (fun _ => rfl) rfl fun _ hr =>
      hr) rfl rfl rfl ?_
    dsimp only
    rcases p.system.commitWatermark_publish w logId with hsame | hnew
    · rw [hsame]
      exact hi.published
    · rw [hnew]
      exact .inr hw
  · exact hi

/-! ### The data Regions -/

lemma cursor_update (s : Store) (r r' : ℕ) : ({ p with region := update p.region r s } : Pipeline).cursor r' =
    if r' = r then s.lastAppliedDecisionTs else p.cursor r' := by
  unfold cursor
  dsimp only
  rw [update_apply]
  split <;> rfl

lemma commitLog_update (s : Store) (r r' : ℕ) : (update p.region r s r').commitLog =
    if r' = r then s.commitLog else (p.region r').commitLog := by
  rw [update_apply]
  split <;> rfl

lemma later_region {s : Store} {r : ℕ} (hcursor : p.cursor r ≤ s.lastAppliedDecisionTs) :
    p.Later { p with region := update p.region r s } where
  table := .refl _
  shards := .refl _ _
  decisions := .refl _
  cursor r' := by
    rw [cursor_update]
    split
    · next hr => rwa [hr]
    · exact le_rfl
  shipped _ _ := le_rfl
  rows _ _ _ h := h
  kept _ h := h
  added _ h := .inl h
  joined _ h := .inl h

lemma inv_region (hi : p.Inv) (r : ℕ) (nowMs : ℤ) (e : Entry) : (step cfg p (.region r nowMs e)).1.Inv := by
  dsimp only [step]
  split
  · exact hi
  next hlog =>
  dsimp only
  obtain ⟨hcommit, hcursor⟩ : (applied cfg (p.region r) nowMs e).commitLog = (p.region r).commitLog ∧
      p.cursor r ≤ (applied cfg (p.region r) nowMs e).lastAppliedDecisionTs := by
    unfold applied
    split
    · exact ⟨rfl, le_rfl⟩
    next s o he =>
    refine ⟨?_, cursor_applyEntry he⟩
    rcases commitLog_applyEntry he with hsame | ⟨cmd, o, hp, hwrites, -⟩
    · exact hsame
    refine absurd ?_ hlog
    unfold writesLog
    rw [hp]
    exact hwrites
  generalize applied cfg (p.region r) nowMs e = s at hcommit hcursor ⊢
  have hlater := @later_region p s r hcursor
  refine hi.next_same hlater
    (hi.stored.frame hlater hi.stored.valid hi.stored.ordered rfl (fun r' => ?_) rfl fun _ h =>
      h) rfl rfl rfl hi.published
  dsimp only
  rw [commitLog_update]
  split
  · next hr => rw [hr, hcommit]
  · rfl

/-! ### Decisions applied -/

lemma added_applyDecisions (hp : p.Stored) {region : RegionMeta} {afterTs batch maxBytes maxTxnBytes : ℕ}
    {logId : AppliedLogId} :
    let s := ((p.region region.regionId).applyCommitDecisionsWithLog cfg.size cfg.mode
      (buildApplyBatch (sequencerDecisionsAfter p.decisions afterTs batch) region batch
        maxBytes) logId.index logId maxTxnBytes).1
    p.cursor region.regionId ≤ s.lastAppliedDecisionTs ∧
    Table.Grows (fun k rec => rec.key = k ∧ rec.shardId = commitLogStagingShardId ∧ rec.regionId = region.regionId ∧
        p.Decided rec.commitTs ∧ p.cursor region.regionId < rec.commitTs ∧ rec.commitTs ≤ s.lastAppliedDecisionTs)
      (p.region region.regionId).commitLog s.commitLog := by
  obtain ⟨n, hbatch⟩ := buildApplyBatch_eq p.decisions region afterTs batch maxBytes
  unfold applyCommitDecisionsWithLog
  rw [hbatch]
  obtain ⟨hg, hle⟩ := @grows_applyCommitDecisionsCore cfg.size maxTxnBytes (p.region region.regionId)
    cfg.mode ((((p.decisions.filter fun d => decide (afterTs < d.commitTs)).take n).map
      (clipDecision region)).map .logged) logId.index logId
  refine ⟨hle, hg.mono ?_⟩
  rintro k rec ⟨hk, hlo, hhi, view, hview, log, hlog, hid, hts, hregion, -⟩
  obtain ⟨c, hc, rfl⟩ := mem_map.1 hview
  obtain ⟨d, hd, rfl⟩ := mem_map.1 hc
  cases hlog
  have hmem : d ∈ p.decisions := (mem_filter.1 (mem_of_mem_take hd)).1
  exact ⟨hk, hid, hregion, (decided_iff hp.ordered).2 ⟨d, hmem, hts.symm⟩, hlo, hhi⟩

theorem inv_applyDecisions (hi : p.Inv) (region : RegionMeta) (afterTs batch maxBytes maxTxnBytes : ℕ)
    (logId : AppliedLogId) : (step cfg p (.applyDecisions region afterTs batch maxBytes maxTxnBytes logId)).1.Inv := by
  have hp := hi.stored
  obtain ⟨hcursor, hg⟩ := @added_applyDecisions p cfg hp region afterTs batch maxBytes maxTxnBytes logId
  dsimp only [step]
  split
  · next hrun =>
    dsimp only
    generalize ((p.region region.regionId).applyCommitDecisionsWithLog cfg.size cfg.mode
      (buildApplyBatch (sequencerDecisionsAfter p.decisions afterTs batch) region batch
        maxBytes) logId.index logId maxTxnBytes).1 = s at hcursor hg ⊢
    set p' : Pipeline := { p with
      region := update p.region region.regionId s
      records := p.records ++ s.commitLog.rows.map Prod.snd }
    have hcursor' : ∀ r, p'.cursor r = if r = region.regionId then s.lastAppliedDecisionTs else p.cursor r :=
      cursor_update s region.regionId
    have hlog' : ∀ r, (p'.region r).commitLog =
        if r = region.regionId then s.commitLog else (p.region r).commitLog := commitLog_update s region.regionId
    -- a record is an old one, or one of the new rows
    have hmem : ∀ rec ∈ p'.records, rec ∈ p.records ∨ s.commitLog.get rec.key = some rec ∧
        rec.shardId = commitLogStagingShardId ∧ rec.regionId = region.regionId ∧ p.Decided rec.commitTs ∧
        p.cursor region.regionId < rec.commitTs ∧ rec.commitTs ≤ s.lastAppliedDecisionTs := by
      intro rec hrec
      rcases mem_append.1 hrec with hold | hnew
      · exact .inl hold
      obtain ⟨⟨k, v⟩, hrow, rfl⟩ := mem_map.1 hnew
      have hget := mem_rows.1 hrow
      rcases hg.added k v hget with hold | ⟨hk, hrest⟩
      · exact .inl (hp.outbox _ k v hold).2.1
      · exact .inr ⟨hk ▸ hget, hrest⟩
    have hlater : p.Later p' := by
      refine ⟨.refl _, .refl _ _, .refl _, fun r => ?_, fun _ _ => le_rfl, fun _ _ _ h => h,
        fun _ h => mem_append_left _ h, fun rec hrec => ?_, fun _ h => .inl h⟩
      · rw [hcursor']
        split
        · next hr => rwa [hr]
        · exact le_rfl
      · refine (hmem rec hrec).imp_right ?_
        rintro ⟨-, -, hregion, hts, hlt, -⟩
        rw [hregion]
        exact ⟨hrun, hts, hlt⟩
    refine hi.next_same hlater ?_ rfl rfl rfl hi.published
    refine ⟨hp.valid, hp.ordered, fun rec hrec => ?_, fun rec hrec rec' hrec' hr hts => ?_, fun r k rec hk => ?_,
      fun rec hrec => ?_, fun shardId k row hk => ?_, fun z hz rec hrec hlo hle => ?_,
      fun shardId r => (hp.shipped_le shardId r).trans (hlater.cursor r), hp.opened, fun rec hrec hnot => ?_⟩
    · rcases hmem rec hrec with hold | ⟨-, hid, hregion, hts, hlt, hle⟩
      · obtain ⟨hid, hpos, hts, hcur⟩ := hp.record rec hold
        exact ⟨hid, hpos, hts, hcur.trans (hlater.cursor _)⟩
      · refine ⟨hid, by omega, hts, ?_⟩
        rw [hcursor', if_pos hregion]
        exact hle
    · have hcur : ∀ x ∈ p.records, x.regionId = region.regionId → x.commitTs ≤ p.cursor region.regionId :=
        fun x hx hxr => hxr ▸ (hp.record x hx).2.2.2
      rcases hmem rec hrec with hold | ⟨hget, hid, hregion, -, hlt, -⟩ <;>
        rcases hmem rec' hrec' with hold' | ⟨hget', hid', hregion', -, hlt', -⟩
      · exact hp.unique rec hold rec' hold' hr hts
      · have := hcur rec hold (hr.trans hregion')
        omega
      · have := hcur rec' hold' (hr.symm.trans hregion)
        omega
      · have hkey : rec.key = rec'.key := by
          unfold CommitRecord.key
          rw [hid, hid', hts, hr]
        rw [hkey] at hget
        exact Option.some.inj (hget.symm.trans hget')
    · rw [hlog'] at hk
      split at hk
      · next hr =>
        rcases hg.added k rec hk with hold | ⟨hkey, -, hregion, -⟩
        · obtain ⟨hkey, hrec, hregion⟩ := hp.outbox _ k rec hold
          exact ⟨hkey, mem_append_left _ hrec, hregion.trans hr.symm⟩
        · exact ⟨hkey, mem_append_right _ (mem_map.2 ⟨(k, rec), mem_rows.2 hk, rfl⟩),
            hregion.trans hr.symm⟩
      · obtain ⟨hkey, hrec, hregion⟩ := hp.outbox r k rec hk
        exact ⟨hkey, mem_append_left _ hrec, hregion⟩
    · rw [hlog']
      rcases hmem rec hrec with hold | ⟨hget, -, hregion, -⟩
      · refine (hp.there rec hold).imp_left fun hget => ?_
        split
        · next hr => exact hg.keeps _ _ (hr ▸ hget)
        · exact hget
      · rw [if_pos hregion]
        exact .inl hget
    · obtain ⟨hkey, rec, hrec, hrow⟩ := hp.rows shardId k row hk
      exact ⟨hkey, rec, mem_append_left _ hrec, hrow⟩
    · rcases hmem rec hrec with hold | ⟨-, -, hregion, -, hlt, -⟩
      · exact hp.ship z hz rec hold hlo hle
      have hle' : rec.commitTs ≤ p.shipped z.shardId rec.regionId := hle
      have := hp.shipped_le z.shardId rec.regionId
      rw [hregion] at this hle'
      omega
    · rcases hmem rec hrec with hold | ⟨-, -, hregion, -⟩
      · exact (hp.away rec hold hnot).later hlater (hp.record_le_last hold)
      · exact absurd (hregion ▸ hrun) hnot
  · exact hi

/-! ### Trimming -/

lemma inv_trim (hi : p.Inv) (r throughTs maxRows : ℕ) (logId : AppliedLogId) :
    (step cfg p (.trim r throughTs maxRows logId)).1.Inv := by
  have hp := hi.stored
  dsimp only [step]
  split
  · next hgc =>
    have hget := get_trimCommitLogOutbox (p.region r) cfg.mode throughTs maxRows logId
    have hrest := (@moves_trimCommitLogOutbox cfg.mode logId (p.region r) throughTs maxRows).outer
    have hcursor : ((p.region r).trimCommitLogOutbox cfg.mode throughTs maxRows logId).1.lastAppliedDecisionTs =
        p.cursor r := (congrArg lastAppliedDecisionTs hrest : _)
    generalize ((p.region r).trimCommitLogOutbox cfg.mode throughTs maxRows logId).1 = s at hget hcursor ⊢
    have hlater := @later_region p s r hcursor.ge
    refine hi.next_same hlater ?_ rfl rfl rfl hi.published
    refine ⟨hp.valid, hp.ordered, fun rec hrec => ?_, hp.unique, fun r' k rec hk => ?_, fun rec hrec => ?_, hp.rows,
      hp.ship, fun shardId r' => (hp.shipped_le shardId r').trans (hlater.cursor r'), hp.opened, hp.away⟩
    · obtain ⟨hid, hpos, hts, hcur⟩ := hp.record rec hrec
      exact ⟨hid, hpos, hts, hcur.trans (hlater.cursor _)⟩
    · dsimp only at hk
      rw [commitLog_update] at hk
      split at hk
      · next hr =>
        rw [hr]
        rcases hget k with hsame | ⟨hnone, -⟩
        · exact hp.outbox r k rec (hsame ▸ hk)
        · rw [hnone] at hk
          cases hk
      · exact hp.outbox r' k rec hk
    · dsimp only
      rw [commitLog_update]
      rcases hp.there rec hrec with hthere | hlt
      · split
        · next hr =>
          rcases hget rec.key with hsame | ⟨-, -, hlt⟩
          · exact .inl (hsame.trans (hr ▸ hthere))
          -- the rows that go are below the timestamp of the trimming
          have hid := (hp.record rec hrec).1
          rw [CommitRecord.key, commitLogKey_lt] at hlt
          exact .inr (by show rec.commitTs < p.table.gcBeforeTs; omega)
        · exact .inl hthere
      · exact .inr hlt
  · exact hi

/-! ### Shipments -/

lemma later_pending (groups : List ℕ) (ships : List ShipTask) (scans : List WatermarkScan) (watermarks : List ℕ) :
    p.Later { p with groups := groups, ships := ships, scans := scans, watermarks := watermarks } where
  table := .refl _
  shards := .refl _ _
  decisions := .refl _
  cursor _ := le_rfl
  shipped _ _ := le_rfl
  rows _ _ _ h := h
  kept _ h := h
  added _ h := .inl h
  joined _ h := .inl h

lemma Stored.pending (hp : p.Stored) (groups : List ℕ) (ships : List ShipTask) (scans : List WatermarkScan)
    (watermarks : List ℕ) :
    ({ p with groups := groups, ships := ships, scans := scans, watermarks := watermarks } : Pipeline).Stored :=
  hp.frame (later_pending groups ships scans watermarks) hp.valid hp.ordered rfl (fun _ => rfl) rfl fun _ h => h

lemma Stored.key_lt (hp : p.Stored) {r : ℕ} {a b : CommitRecord} (ha : (p.region r).commitLog.get a.key = some a)
    (hb : (p.region r).commitLog.get b.key = some b) : a.key < b.key ↔ a.commitTs < b.commitTs := by
  obtain ⟨-, ha, har⟩ := hp.outbox r _ a ha
  obtain ⟨-, hb, hbr⟩ := hp.outbox r _ b hb
  have haid := (hp.record a ha).1
  have hbid := (hp.record b hb).1
  unfold CommitRecord.key
  rw [commitLogKey_lt]
  omega

lemma taskOk_shipRecords (hp : p.Stored) {m : CommitLogShardMeta} {r floor : ℕ} (hknows : p.knows m = true)
    (hfloor : floor ≤ p.shipped m.shardId r) (maxTxnBytes : ℕ) :
    p.TaskOk ⟨m, r, maxTxnBytes, splitShipBatches (shipRecords m floor (p.region r))⟩ := by
  set read := (p.region r).commitRecordsAfter commitLogStagingShardId (max floor (m.startTs - 1)) shipBatchRecords
    with hread
  have hin : ∀ a ∈ read, (p.region r).commitLog.get a.key = some a := fun a ha =>
    (mem_commitRecordsAfter (hp.keyed r) ha).1
  have hmem : ∀ {y}, y ∈ (splitShipBatches (shipRecords m floor (p.region r))).flatten ↔
      ∃ rec ∈ read, m.covers rec.commitTs = true ∧ relabel m.shardId rec = y := by
    intro y
    rw [splitShipBatches_flatten]
    simp [shipRecords, hread, and_assoc]
  refine ⟨?_, fun y hy => ?_, ?_, fun rec hrec hr hlo y hy hle => ?_⟩
  · obtain ⟨z, hz, hsame⟩ := any_eq_true.1 hknows
    obtain ⟨hid, hlo, -⟩ := of_decide_eq_true hsame
    exact ⟨z, hz, hid, hlo⟩
  · obtain ⟨rec, hrec, hcov, rfl⟩ := hmem.1 hy
    obtain ⟨-, hrec', hregion⟩ := hp.outbox r _ rec (hin rec hrec)
    exact ⟨rec, hrec', rfl, hregion, hcov⟩
  · rw [splitShipBatches_flatten]
    unfold shipRecords
    rw [pairwise_map]
    have hpair := (pairwise_commitRecordsAfter (hp.keyed r) commitLogStagingShardId (max floor (m.startTs - 1))
      shipBatchRecords).filter fun rec => m.covers rec.commitTs
    refine hpair.imp_of_mem fun {a b} ha hb hlt => ?_
    exact (hp.key_lt (hin a (mem_filter.1 ha).1) (hin b (mem_filter.1 hb).1)).1 hlt
  · dsimp only at hr hlo hy ⊢
    obtain ⟨rec', hrec', hcov', rfl⟩ := hmem.1 hy
    change rec.commitTs ≤ rec'.commitTs at hle
    rcases hp.there rec hrec with hthere | hgc
    · rw [hr] at hthere
      by_cases hfl : rec.commitTs ≤ floor
      · exact .inl (hfl.trans hfloor)
      have hid := (hp.record rec hrec).1
      have hpos := (hp.record rec hrec).2.1
      have hrecmem : rec ∈ read := by
        by_contra hnot
        rw [hread, ← hid] at hnot
        have hlt := (lt_of_not_mem_commitRecordsAfter (hp.keyed r) hthere (by omega) hnot).2.2 rec'
          (by rw [hid]; exact hrec')
        have := (hp.key_lt (hin rec' hrec') hthere).1 hlt
        omega
      refine .inr (.inl (hmem.2 ⟨rec, hrecmem, ?_, rfl⟩))
      obtain ⟨-, hhi⟩ := of_decide_eq_true hcov'
      exact decide_eq_true ⟨hlo, by omega⟩
    · exact .inr (.inr hgc)

lemma inv_beginShip (hi : p.Inv) (m : CommitLogShardMeta) (r floor maxTxnBytes : ℕ) :
    (step cfg p (.beginShip m r floor maxTxnBytes)).1.Inv := by
  dsimp only [step]
  split
  · next hknows =>
    refine hi.next (later_pending p.groups _ p.scans p.watermarks) (hi.stored.pending _ _ _ _) (fun t ht => ?_)
      (fun _ hs => .inl hs) (fun _ hw => .inl hw) hi.published
    refine (mem_append_one.1 ht).imp_right ?_
    rintro rfl
    exact (taskOk_shipRecords hi.stored hknows.1 hknows.2 maxTxnBytes).later hi.stored (later_pending p.groups _
      p.scans p.watermarks)
  · exact hi

theorem inv_ship (hi : p.Inv) {i : ℕ} {logId : AppliedLogId} (hok : Orderly cfg p (.ship i logId)) :
    (step cfg p (.ship i logId)).1.Inv := by
  have hp := hi.stored
  dsimp only [step]
  split
  · exact hi
  next t hget =>
  split
  · exact hi
  next batch rest hbatches =>
  have htask := hi.tasks t (mem_of_getElem? hget)
  have hflat : t.batches.flatten = batch ++ rest.flatten := by rw [hbatches]; rfl
  have hbatch : ∀ y ∈ batch, ∃ rec ∈ p.records, y = relabel t.shard.shardId rec ∧ rec.regionId = t.regionId ∧
      t.shard.covers rec.commitTs = true := fun y hy => htask.records y (hflat ▸ mem_append_left _ hy)
  have haccepts : ∀ y ∈ batch, Store.Accepts cfg.size t.shard.shardId t.shard.startTs t.shard.endTs
      t.maxTxnBytes y := by
    intro y hy
    have henc := hok t hget batch (by rw [hbatches]; rfl) y hy
    obtain ⟨rec, -, rfl, -, hcov⟩ := hbatch y hy
    obtain ⟨hlo, hhi⟩ := of_decide_eq_true hcov
    exact ⟨rfl, hlo, hhi, henc⟩
  -- a record under the key of another is that record
  have hsame : ∀ rec ∈ p.records, ∀ rec' ∈ p.records, (relabel t.shard.shardId rec).key =
      (relabel t.shard.shardId rec').key → rec = rec' := by
    intro rec hrec rec' hrec' hkey
    obtain ⟨hts, hregion⟩ := relabel_key_inj hkey
    exact hp.unique rec hrec rec' hrec' hregion hts
  have hfree : Store.Free (p.shard t.shard.shardId).commitLog batch := by
    rintro y hy z hz
    obtain ⟨rec, hrec, rfl, -⟩ := hbatch y hy
    rcases hz with hz | ⟨hz, hkey⟩
    · obtain ⟨hkey, rec', hrec', rfl⟩ := hp.rows _ _ z hz
      rw [hsame rec' hrec' rec hrec hkey]
    · obtain ⟨rec', hrec', rfl, -⟩ := hbatch z hz
      rw [hsame rec' hrec' rec hrec hkey]
  obtain ⟨hthere, hshipped⟩ := applyCommitLogAppend_accepted (p.shard t.shard.shardId) cfg.mode logId.index
    logId haccepts hfree
  have hg := @grows_applyCommitLogAppend cfg.size t.shard.shardId t.shard.startTs t.shard.endTs
    t.maxTxnBytes (p.shard t.shard.shardId) cfg.mode batch logId.index logId
  dsimp only at hthere hshipped ⊢
  generalize ((p.shard t.shard.shardId).applyCommitLogAppend cfg.size cfg.mode t.shard.shardId
    t.shard.startTs t.shard.endTs batch t.maxTxnBytes logId.index logId).1 = s at hthere hshipped hg ⊢
  set p' : Pipeline := { p with
    shard := update p.shard t.shard.shardId s
    ships := p.ships.set i { t with batches := rest } }
  have hshard : ∀ id, p'.shard id = if id = t.shard.shardId then s else p.shard id := fun id =>
    update_apply ..
  have hrows : ∀ id k row, (p.shard id).commitLog.get k = some row → (p'.shard id).commitLog.get k = some row := by
    intro id k row hk
    rw [hshard]
    split
    · next hid => exact hg.keeps k row (hid ▸ hk)
    · exact hk
  have hraise : ∀ id r, p.shipped id r ≤ p'.shipped id r ∧ (p'.shipped id r = p.shipped id r ∨
      id = t.shard.shardId ∧ r = t.regionId ∧ ∃ y ∈ batch, p'.shipped id r = y.commitTs) := by
    intro id r
    unfold shipped
    rw [hshard]
    split
    · next hid =>
      rw [hid]
      refine ⟨(hshipped r).1, (hshipped r).2.imp_right ?_⟩
      rintro ⟨y, hy, hyr, hts⟩
      obtain ⟨rec, -, rfl, hregion, -⟩ := hbatch y hy
      exact ⟨rfl, hyr.symm.trans hregion, _, hy, hts⟩
    · exact ⟨le_rfl, .inl rfl⟩
  have hlater : p.Later p' := ⟨.refl _, .refl _ _, .refl _, fun _ => le_rfl, fun id r => (hraise id r).1, hrows,
    fun _ h => h, fun _ h => .inl h, fun _ h => .inl h⟩
  have hholds : ∀ rec, relabel t.shard.shardId rec ∈ batch → p'.Holds t.shard.shardId rec := by
    intro rec hrec
    unfold Holds
    rw [hshard, if_pos rfl]
    exact (hthere _ hrec).1
  -- what is at or below the batch is in the shard now, or in the batch
  have hbelow : ∀ rec ∈ p.records, rec.regionId = t.regionId → t.shard.startTs ≤ rec.commitTs → ∀ y ∈ batch,
      rec.commitTs ≤ y.commitTs → rec.commitTs ≤ p.shipped t.shard.shardId t.regionId ∨
        relabel t.shard.shardId rec ∈ batch ∨ rec.commitTs < p.table.gcBeforeTs := by
    intro rec hrec hr hlo y hy hle
    refine (htask.dense rec hrec hr hlo y (hflat ▸ mem_append_left _ hy) hle).imp_right fun h =>
      h.imp_left fun hmem => ?_
    rw [hflat] at hmem
    refine (mem_append.1 hmem).resolve_right fun hrest => ?_
    have hsorted := htask.sorted
    rw [hflat] at hsorted
    have hlt := (pairwise_append.1 hsorted).2.2 y hy _ hrest
    change y.commitTs < rec.commitTs at hlt
    omega
  have htask' : p'.TaskOk { t with batches := rest } := by
    refine ⟨htask.shard, fun y hy => htask.records y (hflat ▸ mem_append_right _ hy), ?_,
      fun rec hrec hr hlo y hy hle => ?_⟩
    · have hsorted := htask.sorted
      rw [hflat] at hsorted
      exact (pairwise_append.1 hsorted).2.1
    · rcases htask.dense rec hrec hr hlo y (hflat ▸ mem_append_right _ hy) hle with hs | hmem | hgc
      · exact .inl (hs.trans (hraise _ _).1)
      · rw [hflat] at hmem
        rcases mem_append.1 hmem with hbatch' | hrest
        · have hts := (hthere _ hbatch').2
          refine .inl ?_
          unfold shipped
          dsimp only
          rw [hshard, if_pos rfl, ← hr]
          exact hts
        · exact .inr (.inl hrest)
      · exact .inr (.inr hgc)
  refine hi.next hlater ?_ (fun t' ht' => ?_) (fun _ hs => .inl hs) (fun _ hw => .inl hw) hi.published
  · refine ⟨hp.valid, hp.ordered, hp.record, hp.unique, hp.outbox, hp.there, fun id k row hk => ?_,
      fun z hz rec hrec hlo hle => ?_, fun id r => ?_, fun id r hne => ?_,
      fun rec hrec hnot => (hp.away rec hrec hnot).later hlater (hp.record_le_last hrec)⟩
    · rw [hshard] at hk
      split at hk
      · next hid =>
        rcases hg.added k row hk with hold | ⟨hkey, hrow, -⟩
        · rw [hid]
          exact hp.rows _ k row hold
        · obtain ⟨rec, hrec, rfl, -⟩ := hbatch row hrow
          exact ⟨hkey, rec, hrec, by rw [hid]⟩
      · exact hp.rows id k row hk
    · have hold : rec.commitTs ≤ p.shipped z.shardId rec.regionId →
          rec.commitTs < p'.table.gcBeforeTs ∨ p'.Holds z.shardId rec := fun hle' =>
        (hp.ship z hz rec hrec hlo hle').imp_right fun hrow => hrows _ _ _ hrow
      rcases (hraise z.shardId rec.regionId).2 with hraised | ⟨hid, hr, y, hy, hts⟩
      · exact hold (hraised ▸ hle)
      obtain ⟨z', hz', hid', hlo'⟩ := htask.shard
      obtain rfl : z = z' := hp.valid.eq_of_shardId hz hz' (hid.trans hid'.symm)
      rcases hbelow rec hrec hr (hlo' ▸ hlo) y hy (hts ▸ hle) with hs | hmem | hgc
      · exact hold (by rw [hid, hr]; exact hs)
      · rw [hid]
        exact .inr (hholds rec hmem)
      · exact .inl hgc
    · rcases (hraise id r).2 with hraised | ⟨-, hr, y, hy, hts⟩
      · rw [hraised]
        exact hp.shipped_le id r
      · obtain ⟨rec, hrec, rfl, hregion, -⟩ := hbatch y hy
        rw [hts, hr, ← hregion]
        exact (hp.record rec hrec).2.2.2
    · rcases (hraise id r).2 with hraised | ⟨hid, -⟩
      · exact hp.opened id r (hraised ▸ hne)
      · obtain ⟨z, hz, hzid, -⟩ := htask.shard
        exact ⟨z, hz, hzid.trans hid.symm⟩
  · rcases mem_or_eq_of_mem_set ht' with hold | rfl
    · exact .inl hold
    · exact .inr htask'

/-! ### Watermarks -/

lemma commitWatermark_append (last : ℕ) (inFlight more : List ℕ) :
    (commitWatermark last (inFlight ++ more)).watermark ≤ (commitWatermark last inFlight).watermark := by
  obtain ⟨hle, hall⟩ := le_commitWatermark.1 (le_refl (commitWatermark last (inFlight ++ more)).watermark)
  exact le_commitWatermark.2 ⟨hle, fun ts hts => hall ts (mem_append_left _ hts)⟩

lemma commitWatermark_lt {last ts : ℕ} {inFlight : List ℕ} (hts : ts ∈ inFlight) (hpos : ts ≠ 0) :
    (commitWatermark last inFlight).watermark < ts := by
  have := (le_commitWatermark.1 (le_refl (commitWatermark last inFlight).watermark)).2 ts hts
  omega

/-- **The decisions of a Region have been read**: those up to the watermark are applied. -/
lemma caught_of_next (hp : p.Stored) {r applied last : ℕ} {inFlight : List ℕ} (happlied : applied ≤ p.cursor r) :
    p.Caught r (commitWatermark last (inFlight ++ (pendingDecision applied
      (((sequencerDecisionsAfter p.decisions applied 1).head?).map SequencerDecision.commitTs)).toList)).watermark := by
  intro ts hts hle
  by_contra hnot
  obtain ⟨n, hn, hlt, hnts⟩ := @next_decision p hp.ordered applied ts hts (by omega)
  rw [hn] at hle
  have hpending : pendingDecision applied (some n) = some n := by
    unfold pendingDecision
    rw [Option.filter_some, if_pos (decide_eq_true hlt)]
  rw [hpending] at hle
  have := @commitWatermark_lt last n (inFlight ++ (some n).toList) (by simp) (by omega)
  omega

/-- **The outbox of a Region has been read for a shard**: its records up to the watermark are settled. -/
lemma shipped_of_next (hp : p.Stored) {table : CommitLogShardTable} {m : CommitLogShardMeta} {r floor last : ℕ}
    {inFlight : List ℕ} (htable : p.ScanTable last table) (hm : m ∈ table.shards)
    (hfloor : floor ≤ p.shipped m.shardId r) :
    p.Shipped m r (commitWatermark last (inFlight ++ (unshippedRecord m.startTs m.endTs
      ((((p.region r).commitRecordsAfter commitLogStagingShardId (max floor (m.startTs - 1)) 1).head?).map
        CommitRecord.commitTs)).toList)).watermark := by
  intro rec hrec hr hcov hle
  obtain ⟨hlo, hhi⟩ := of_decide_eq_true hcov
  obtain ⟨hid, hpos, -, -⟩ := hp.record rec hrec
  rcases hp.there rec hrec with hthere | hgc
  · rw [hr] at hthere
    have hfl : rec.commitTs ≤ floor := by
      by_contra hnot
      -- the next record of the outbox is this one or an earlier one of the shard, and it is under way
      obtain ⟨n, rest, hread⟩ : ∃ n rest, (p.region r).commitRecordsAfter commitLogStagingShardId
          (max floor (m.startTs - 1)) 1 = n :: rest := by
        cases hl : (p.region r).commitRecordsAfter commitLogStagingShardId (max floor (m.startTs - 1)) 1 with
        | cons n rest => exact ⟨n, rest, rfl⟩
        | nil =>
          rw [← hid] at hl
          have hlen := (@lt_of_not_mem_commitRecordsAfter _ (hp.keyed r) (max floor (m.startTs - 1)) 1 rec hthere
            (by omega) (by rw [hl]; exact not_mem_nil)).1
          rw [hl] at hlen
          cases hlen
      obtain ⟨hn, -, hnlo⟩ := mem_commitRecordsAfter (hp.keyed r) (hread ▸ mem_cons_self : n ∈ _)
      have hnle : n.commitTs ≤ rec.commitTs := by
        by_contra hlt
        have hmem : rec ∉ n :: rest := by
          intro hmem
          have hpair := pairwise_commitRecordsAfter (hp.keyed r) commitLogStagingShardId
            (max floor (m.startTs - 1)) 1
          rw [hread] at hpair
          rcases mem_cons.1 hmem with rfl | hrest
          · exact hlt le_rfl
          · have := (hp.key_lt hn hthere).1 ((pairwise_cons.1 hpair).1 rec hrest)
            omega
        rw [← hread, ← hid] at hmem
        have hall := (lt_of_not_mem_commitRecordsAfter (hp.keyed r) hthere (by omega) hmem).2.2 n
          (by rw [hid, hread]; exact mem_cons_self)
        have := (hp.key_lt hn hthere).1 hall
        omega
      rw [hread] at hle
      have hnext : unshippedRecord m.startTs m.endTs (some n.commitTs) = some n.commitTs := by
        unfold unshippedRecord
        rw [Option.filter_some, if_pos (decide_eq_true (by omega))]
      rw [head?_cons, Option.map_some, hnext] at hle
      have := @commitWatermark_lt last n.commitTs (inFlight ++ (some n.commitTs).toList) (by simp) (by omega)
      omega
    have hlast : rec.commitTs ≤ last := hle.trans (le_commitWatermark.1 le_rfl).1
    obtain ⟨m', hm', hid', hlo', -⟩ := htable.shards rec.commitTs hlast m (htable.valid.covering_eq.2 ⟨hm, hcov⟩)
    rcases hp.ship m' (hp.valid.covering_eq.1 hm').1 rec hrec (by omega) (by rw [hid', hr]; omega) with hgc | hrow
    · exact hp.settled_of_lt_gc hrec hgc
    · exact ⟨m', hm', .inr hrow⟩
  · exact hp.settled_of_lt_gc hrec hgc

lemma scanOk_scanStep (hp : p.Stored) {groups : List ℕ} {s s' : WatermarkScan} (hs : p.ScanOk s)
    (h : scanStep p s = some (groups, .inl s')) :
    p.ScanOk s' ∧ s'.decisionLast = s.decisionLast := by
  cases hs with
  | regions hlast =>
    cases h
    refine ⟨.table ⟨hlast, fun r hr => ⟨fun rec hrec hregion _ => ?_, fun hrun => absurd hrun hr⟩⟩, rfl⟩
    exact hp.away rec hrec (hregion ▸ hr)
  | @table last inFlight regions hout =>
    cases h
    exact ⟨.cursors hout ⟨hp.valid, .refl _ _⟩ (fun r hr => .inl hr) (fun _ ha => nomatch ha), rfl⟩
  | @cursors last inFlight regions table todo applied hout htable hcaught happlied =>
    cases todo with
    | nil =>
      cases h
      refine ⟨.outboxes hout htable (fun r hr => (hcaught r hr).resolve_left not_mem_nil) (fun r hr m hm => ?_)
        (fun _ hf => nomatch hf), rfl⟩
      by_cases hgc : table.isReclaimed m = true
      · -- a reclaimed shard is not read: its records are reclaimed too
        refine .inr fun rec hrec _ hcov hle => ?_
        obtain ⟨m', hm', -, -, hgc'⟩ := htable.shards rec.commitTs (hle.trans (le_commitWatermark.1 le_rfl).1) m
          (htable.valid.covering_eq.2 ⟨hm, hcov⟩)
        exact ⟨m', hm', .inl (hgc' hgc)⟩
      · refine .inl (mem_flatMap.2 ⟨m, mem_filter.2 ⟨hm, by simpa using hgc⟩, ?_⟩)
        exact mem_cons_of_mem _ (mem_map.2 ⟨r, hr, rfl⟩)
    | cons r todo =>
      cases applied with
      | none =>
        cases h
        refine ⟨.cursors hout htable hcaught fun a ha r' hr' => ?_, rfl⟩
        cases ha
        cases hr'
        exact le_rfl
      | some a =>
        cases h
        refine ⟨.cursors hout htable (fun r' hr' => ?_) (fun _ ha => nomatch ha), rfl⟩
        rcases hcaught r' hr' with htodo | hdone
        · rcases mem_cons.1 htodo with rfl | htodo
          · exact .inr (caught_of_next hp (happlied a rfl r' rfl))
          · exact .inl htodo
        · exact .inr (hdone.mono (commitWatermark_append _ _ _))
  | @outboxes last inFlight regions table todo shipped hout htable hcaught hshipped hfloor =>
    cases todo with
    | nil => cases h
    | cons x todo =>
      obtain ⟨m, none | r⟩ := x
      · obtain ⟨_, -, heq⟩ := Option.map_eq_some_iff.1 h
        cases heq
        refine ⟨.outboxes hout htable hcaught (fun r hr m' hm' => (hshipped r hr m' hm').imp_left fun hmem => ?_)
          (fun _ hf => nomatch hf), rfl⟩
        exact (mem_cons.1 hmem).resolve_left (by simp)
      cases shipped with
      | none =>
        cases h
        refine ⟨.outboxes hout htable hcaught hshipped fun f hf x hx r' hr' => ?_, rfl⟩
        cases hf
        cases hx
        cases hr'
        exact le_rfl
      | some floor =>
        cases h
        refine ⟨.outboxes hout htable (fun r' hr' => (hcaught r' hr').mono (commitWatermark_append _ _ _))
          (fun r' hr' m' hm' => ?_) (fun _ hf => nomatch hf), rfl⟩
        rcases hshipped r' hr' m' hm' with htodo | hdone
        · rcases mem_cons.1 htodo with heq | htodo
          · cases heq
            exact .inr (shipped_of_next hp htable hm' (hfloor floor rfl _ rfl r rfl))
          · exact .inl htodo
        · exact .inr (hdone.mono (commitWatermark_append _ _ _))

/-- **The watermark of a scan** whose table reaches beyond the last decision: everything up to it is quiet. -/
lemma quiet_scanStep (hp : p.Stored) {groups : List ℕ} {s : WatermarkScan} {w : CommitWatermarkState} (hs : p.ScanOk s)
    (hreach : s.ReachesLast) (h : scanStep p s = some (groups, .inr w)) :
    w.watermark ≤ p.last ∧ ∀ r, p.Quiet r w.watermark := by
  cases hs with
  | regions _ => cases h
  | table _ => cases h
  | @cursors last inFlight regions table todo applied hout htable hcaught happlied =>
    cases todo with
    | nil => cases h
    | cons r todo => cases applied <;> cases h
  | @outboxes last inFlight regions table todo shipped hout htable hcaught hshipped hfloor =>
    cases todo with
    | cons x todo =>
      obtain ⟨m, none | r⟩ := x
      · obtain ⟨_, -, heq⟩ := Option.map_eq_some_iff.1 h
        cases heq
      · cases shipped <;> cases h
    | nil =>
      cases h
      have hle : (commitWatermark last inFlight).watermark ≤ last := (le_commitWatermark.1 le_rfl).1
      refine ⟨hle.trans hout.last_le, fun r => ?_⟩
      by_cases hr : r ∈ regions
      · refine ⟨fun rec hrec hregion hts => ?_, fun _ => hcaught r hr⟩
        have hpos := (hp.record rec hrec).2.1
        have hreach' : Watch.Reaches table rec.commitTs := by
          obtain ⟨z, hz, hend⟩ := Watch.reaches_iff.1 hreach
          exact Watch.reaches_iff.2 ⟨z, hz, hend.imp_right fun hlt => (hts.trans hle).trans_lt hlt⟩
        obtain ⟨m, hm, hcov⟩ := hreach'.covers htable.valid (Nat.one_le_iff_ne_zero.2 hpos)
        exact (hshipped r hr m hm).resolve_left not_mem_nil rec hrec hregion hcov hts
      · exact (hout.quiet r hr).mono hle

lemma inv_groups (hi : p.Inv) (groups : List ℕ) : ({ p with groups := groups } : Pipeline).Inv :=
  hi.next_same (later_pending groups p.ships p.scans p.watermarks) (hi.stored.pending _ _ _ _) rfl rfl rfl hi.published

lemma inv_beginScan (hi : p.Inv) : (step cfg p .beginScan).1.Inv := by
  refine hi.next (later_pending p.groups p.ships _ p.watermarks) (hi.stored.pending _ _ _ _) (fun _ ht => .inl ht)
    (fun s hs => ?_) (fun _ hw => .inl hw) hi.published
  refine (mem_append_one.1 hs).imp_right ?_
  rintro rfl
  exact .regions le_rfl

theorem inv_scan (hi : p.Inv) {i : ℕ} (hok : Orderly cfg p (.scan i)) : (step cfg p (.scan i)).1.Inv := by
  dsimp only [step]
  split
  · exact hi
  next s hget =>
  have hs := hi.scans s (mem_of_getElem? hget)
  have hbounds : p.Bounds s.decisionLast := .inr ⟨s, mem_of_getElem? hget, rfl⟩
  split
  · exact hi.next (later_pending p.groups p.ships _ p.watermarks) (hi.stored.pending _ _ _ _) (fun _ ht => .inl ht)
      (fun x hx => .inl (mem_of_mem_eraseIdx hx)) (fun _ hw => .inl hw) hi.published
  · next groups s' hnext =>
    obtain ⟨hs', hlast⟩ := scanOk_scanStep hi.stored hs hnext
    have hlater := @later_pending p groups p.ships (p.scans.set i s') p.watermarks
    refine hi.next hlater (hi.stored.pending _ _ _ _) (fun _ ht => .inl ht) (fun x hx => ?_) (fun _ hw => .inl hw)
      hi.published
    rcases mem_or_eq_of_mem_set hx with hold | rfl
    · exact .inl hold
    · exact .inr (hs'.later hi.stored hlater (hlast ▸ hbounds))
  · next groups w hnext =>
    obtain ⟨hle, hquiet⟩ := quiet_scanStep hi.stored hs (hok s hget) hnext
    have hlater := @later_pending p groups p.ships (p.scans.eraseIdx i) (p.watermarks ++ [w.watermark])
    refine hi.next hlater (hi.stored.pending _ _ _ _) (fun _ ht => .inl ht) (fun x hx => .inl (mem_of_mem_eraseIdx hx))
      (fun w' hw' => ?_) ?_
    · refine (mem_append_one.1 hw').imp_right ?_
      rintro rfl
      exact ⟨hle, fun r => ⟨(hquiet r).settled, (hquiet r).caught⟩⟩
    · exact hi.published.imp_right fun hpub => mem_append_left _ hpub

/-! ### Regions that join and leave -/

lemma inv_attach (hi : p.Inv) {r : ℕ} (hok : Orderly cfg p (.attach r)) : (step cfg p (.attach r)).1.Inv := by
  have hlater : p.Later (step cfg p (.attach r)).1 := by
    refine ⟨.refl _, .refl _ _, .refl _, fun _ => le_rfl, fun _ _ => le_rfl, fun _ _ _ h => h, fun _ h => h,
      fun _ h => .inl h, fun r' hr' => ?_⟩
    dsimp only [step] at hr'
    split at hr'
    · exact .inl hr'
    next hnot =>
    refine (mem_append_one.1 hr').imp_right ?_
    rintro rfl
    obtain ⟨hmarks, hscans⟩ := hok.resolve_left hnot
    rintro w (hw | ⟨s, hs, rfl⟩)
    · exact (hmarks w hw).caught hi.stored.ordered
    · exact (hscans s hs).caught hi.stored.ordered
  refine hi.next_same hlater (hi.stored.frame hlater hi.stored.valid hi.stored.ordered rfl (fun _ =>
    rfl) rfl ?_) rfl rfl rfl
    hi.published
  intro r' hr'
  dsimp only [step]
  split
  · exact hr'
  · exact mem_append_left _ hr'

lemma inv_retire (hi : p.Inv) {r : ℕ} (hok : Orderly cfg p (.retire r)) : (step cfg p (.retire r)).1.Inv := by
  have hp := hi.stored
  have hlater : p.Later (step cfg p (.retire r)).1 := by
    refine ⟨.refl _, .refl _ _, .refl _, fun _ => le_rfl, fun _ _ => le_rfl, fun _ _ _ h => h, fun _ h => h,
      fun _ h => .inl h, fun r' hr' => .inl (mem_filter.1 hr').1⟩
  refine hi.next_same hlater ?_ rfl rfl rfl hi.published
  refine ⟨hp.valid, hp.ordered, hp.record, hp.unique, hp.outbox, hp.there, hp.rows, hp.ship, hp.shipped_le, hp.opened,
    fun rec hrec hnot => ?_⟩
  show p.Settled rec
  by_cases hr : rec.regionId = r
  · rcases hp.there rec hrec with hthere | hgc
    · exact hok (rec.key, rec) (mem_rows.2 (hr ▸ hthere))
    · exact hp.settled_of_lt_gc hrec hgc
  · exact hp.away rec hrec fun hrun => hnot (mem_filter.2 ⟨hrun, decide_eq_true hr⟩)

/-! ### Runs -/

lemma inv_start : Pipeline.start.Inv where
  stored :=
    { valid := CommitLogShardTable.valid_default Nat.one_pos
      ordered := fun _ _ h => nomatch h
      record := by simp [start]
      unique := by simp [start]
      outbox := fun _ _ _ h => nomatch h
      there := by simp [start]
      rows := fun _ _ _ h => nomatch h
      ship := by simp [start]
      shipped_le := fun _ _ => le_rfl
      opened := fun _ _ h => absurd rfl h
      away := by simp [start] }
  tasks := by simp [start]
  scans := by simp [start]
  watermarks := by simp [start]
  published := .inl rfl

lemma inv_step (hi : p.Inv) {s : Step} (hok : Orderly cfg p s) : (step cfg p s).1.Inv := by
  cases s with
  | system nowMs e => exact inv_system hi hok.1 hok.2
  | publish w logId => exact inv_publish hi w logId
  | region r nowMs e => exact inv_region hi r nowMs e
  | applyDecisions region afterTs batch maxBytes maxTxnBytes logId =>
    exact inv_applyDecisions hi region afterTs batch maxBytes maxTxnBytes logId
  | trim r throughTs maxRows logId => exact inv_trim hi r throughTs maxRows logId
  | beginShip m r floor maxTxnBytes => exact inv_beginShip hi m r floor maxTxnBytes
  | ship i logId => exact inv_ship hi hok
  | ensureRuntime shardId => exact inv_groups hi _
  | gcLocal shardId =>
    dsimp only [step]
    split
    · exact hi
    · exact inv_groups hi _
  | beginScan => exact inv_beginScan hi
  | scan i => exact inv_scan hi hok
  | attach r => exact inv_attach hi hok
  | retire r => exact inv_retire hi hok

end

end Pipeline

/-- **No record below the watermark is missing.**  In every run whose steps keep to the order that the watermark relies
on, in every state reached, a record at or below a watermark that was computed or published is in the shard that covers
it, or the shard is reclaimed. -/
theorem settled_below_watermark (cfg : Config) (steps : List Step) (h : Along (step cfg) (Orderly cfg) .start steps) :
    let p := exec (step cfg) .start steps
    ∀ w, w ∈ p.watermarks ∨ w = p.system.commitWatermark → ∀ rec ∈ p.records, rec.commitTs ≤ w → p.Settled rec := by
  have hi := (along_inv Pipeline.Inv (Orderly cfg) Pipeline.inv_start h fun p s hok hp => Pipeline.inv_step hp hok).1
  intro p w hw rec hrec hle
  have hquiet : ∀ w ∈ p.watermarks, rec.commitTs ≤ w → p.Settled rec := fun w hw hle =>
    ((hi.watermarks w hw).2 rec.regionId).settled rec hrec rfl hle
  rcases hw with hw | rfl
  · exact hquiet w hw hle
  · rcases hi.published with hzero | hpub
    · exact absurd (Nat.le_zero.1 (hzero ▸ hle)) (hi.stored.record rec hrec).2.1
    · exact hquiet _ hpub hle

/-! ### Runs that miss records, and one that does not -/

/-- A configuration whose digests are the texts themselves. -/
def digestConfig : Config := { plainConfig with sequencerHash := fun _ parts => parts.flatten }

def systemStep (index : ℕ) (cmd : Command) : Step := .system 0 ⟨⟨1, 1, index⟩, .normal cmd⟩

/-- A decision at `ts` that writes one key. -/
def decideStep (index ts : ℕ) (key value : Bytes) : Step :=
  systemStep index (.sequencer (.validateAndCommit [⟨key, ts - 1, ts, [], [], [.put key value none]⟩]))

def lowRegion : RegionMeta := ⟨7, [], ascii "m", ⟨1, 1⟩, [], 0, 0⟩

def highRegion : RegionMeta := ⟨8, ascii "m", [], ⟨1, 1⟩, [], 0, 0⟩

def applyStep (region : RegionMeta) (index : ℕ) : Step := .applyDecisions region 0 10 1000 1000 ⟨1, 1, index⟩

def firstShard : CommitLogShardMeta := ⟨1, 1, 0, 0, 0, 0⟩

/-- A whole computation of the watermark, and its publication. -/
def publishSteps (reads watermark index : ℕ) : List Step :=
  .beginScan :: List.replicate reads (.scan 0) ++ [.publish watermark ⟨1, 1, index⟩]

def twoDecisions : List Step :=
  [systemStep 1 (.commitLogShard (.open 1 0)), .attach 7, .attach 8, decideStep 2 5 (ascii "a") [1],
    decideStep 3 6 (ascii "z") [1], applyStep lowRegion 1, applyStep highRegion 1]

/-- The Region with the record at `5` is retired before its record is shipped. -/
def retiredRun : List Step :=
  twoDecisions ++ [.retire 7, .beginShip firstShard 8 0 1000, .ship 0 ⟨1, 1, 1⟩] ++ publishSteps 10 6 4

/-- The shard is bounded and no other one is opened: nothing covers the record at `5`. -/
def boundedRun : List Step :=
  [systemStep 1 (.commitLogShard (.open 1 0)), .attach 7, systemStep 2 (.commitLogShard (.setEnd 1 3 0)),
    decideStep 3 5 (ascii "a") [1], applyStep lowRegion 1] ++ publishSteps 10 5 4

/-- The shard is bounded below a record it has: the next one covers the record and does not get it. -/
def cutRun : List Step :=
  [systemStep 1 (.commitLogShard (.open 1 0)), .attach 7, decideStep 2 5 (ascii "a") [1], applyStep lowRegion 1,
    .beginShip firstShard 7 0 1000, .ship 0 ⟨1, 1, 1⟩] ++ publishSteps 10 5 3 ++
  [systemStep 4 (.commitLogShard (.setEnd 1 4 0)), systemStep 5 (.commitLogShard (.open 4 0))]

/-- The shard refuses the record at `5`, which is larger than the bound of the shipment, and takes the one at `6`. -/
def refusedRun : List Step :=
  [systemStep 1 (.commitLogShard (.open 1 0)), .attach 7, decideStep 2 5 (ascii "a") (List.replicate 50 1),
    decideStep 3 6 (ascii "b") [1], applyStep lowRegion 1, .beginShip firstShard 7 0 20, .ship 0 ⟨1, 1, 1⟩] ++
  publishSteps 10 6 4

/-- A Region joins behind the watermark and writes a record below it. -/
def joinedRun : List Step :=
  [systemStep 1 (.commitLogShard (.open 1 0)), .attach 8, decideStep 2 5 (ascii "a") [1], applyStep highRegion 1] ++
  publishSteps 10 5 3 ++ [.attach 7, applyStep lowRegion 1]

/-- The records at or below the published watermark that are not in the shard that covers them. -/
def missing (p : Pipeline) : List CommitRecord :=
  p.records.filter fun rec => decide (rec.commitTs ≤ p.system.commitWatermark ∧ ¬ p.Settled rec)

/-- Each of these runs publishes a watermark above the record at `5`, which the shard that covers it does not have. -/
theorem records_missed : ([retiredRun, boundedRun, cutRun, refusedRun, joinedRun].map fun run =>
      (missing (exec (step digestConfig) .start run)).map CommitRecord.commitTs) = [[5], [5], [5], [5], [5]] := by
  decide +kernel

/-- Both records are shipped before the watermark, the Region leaves after it, and the shard is bounded above it. -/
def settledRun : List Step :=
  twoDecisions ++ [.beginShip firstShard 7 0 1000, .ship 0 ⟨1, 1, 1⟩, .beginShip firstShard 8 0 1000,
    .ship 1 ⟨1, 1, 2⟩] ++
  publishSteps 14 6 4 ++ [.retire 7, systemStep 5 (.commitLogShard (.setEnd 1 7 0)),
    systemStep 6 (.commitLogShard (.open 7 0)), .attach 7]

theorem settled_below_watermark_settledRun :
    Along (step digestConfig) (Orderly digestConfig) .start settledRun ∧
      (exec (step digestConfig) .start settledRun).system.commitWatermark = 6 ∧
      ∀ rec ∈ (exec (step digestConfig) .start settledRun).records, rec.commitTs ≤ 6 →
        (exec (step digestConfig) .start settledRun).Settled rec := by
  have hrun : Along (step digestConfig) (Orderly digestConfig) .start settledRun := by decide +kernel
  have hpub : (exec (step digestConfig) .start settledRun).system.commitWatermark = 6 := by decide +kernel
  exact ⟨hrun, hpub, settled_below_watermark digestConfig settledRun hrun 6 (.inr hpub.symm)⟩

end Coord.Kvt.Shipping
