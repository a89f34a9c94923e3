import Coord.Kvt.Shipping
import Coord.Kvt.WatchStart
import Coord.Raft.DecisionLog

/-!
# What shipping and the watermark rely on

The invariants of a node: where the records are, how far each shard has them, and what the shipments and the watermarks
under way have seen.  One relation says what a step of the node can do, and every invariant is kept by it.
-/

namespace Coord.Kvt.Shipping

open Coord.Lib Coord.Storage Coord.Raft

/-! ### Watermarks and batches -/

lemma le_commitWatermark {last w : ℕ} {inFlight : List ℕ} :
    w ≤ (commitWatermark last inFlight).watermark ↔ w ≤ last ∧ ∀ ts ∈ inFlight, w ≤ ts - 1 := by
  unfold commitWatermark
  dsimp only
  cases hmin : inFlight.min? with
  | none =>
    rw [List.min?_eq_none_iff.1 hmin]
    simp
  | some ts =>
    obtain ⟨hmem, hle⟩ := List.min?_eq_some_iff.1 hmin
    dsimp only
    constructor
    · intro hw
      refine ⟨by omega, fun ts' hts' => ?_⟩
      have := hle ts' hts'
      omega
    · rintro ⟨hlast, hall⟩
      have := hall ts hmem
      omega

lemma splitLoop_flatten (current : List CommitRecord) (bytes : ℕ) (records : List CommitRecord) :
    (splitLoop current bytes records).flatten = current ++ records := by
  induction records generalizing current bytes with
  | nil =>
    unfold splitLoop
    split
    · next hnil => simp [hnil]
    · simp
  | cons r rest ih =>
    unfold splitLoop
    split
    · rw [List.flatten_cons, ih]
      rfl
    · rw [ih, List.append_assoc]
      rfl

lemma splitShipBatches_flatten (records : List CommitRecord) : (splitShipBatches records).flatten = records :=
  splitLoop_flatten [] 0 records

/-! ### Records -/

lemma relabel_key_inj {shardId : ℕ} {rec rec' : CommitRecord}
    (h : (relabel shardId rec).key = (relabel shardId rec').key) :
    rec.commitTs = rec'.commitTs ∧ rec.regionId = rec'.regionId := by
  have hle : commitLogKey shardId rec.commitTs rec.regionId ≤ commitLogKey shardId rec'.commitTs rec'.regionId := h.le
  have hge : commitLogKey shardId rec'.commitTs rec'.regionId ≤ commitLogKey shardId rec.commitTs rec.regionId := h.ge
  rw [Store.commitLogKey_le] at hle hge
  omega

namespace Pipeline

def cursor (p : Pipeline) (r : ℕ) : ℕ := (p.region r).lastAppliedDecisionTs

def shipped (p : Pipeline) (shardId r : ℕ) : ℕ := (p.shard shardId).commitLogShippedThrough r

def last (p : Pipeline) : ℕ := p.system.seq.last

def Decided (p : Pipeline) (ts : ℕ) : Prop := ∃ d, p.system.seq.decisions.get ts = some d

def Holds (p : Pipeline) (shardId : ℕ) (rec : CommitRecord) : Prop :=
  (p.shard shardId).commitLog.get (relabel shardId rec).key = some (relabel shardId rec)

instance (p : Pipeline) (shardId : ℕ) (rec : CommitRecord) : Decidable (p.Holds shardId rec) :=
  inferInstanceAs (Decidable (_ = _))

/-- A shard covers the record, and it has the record or is reclaimed. -/
def Settled (p : Pipeline) (rec : CommitRecord) : Prop :=
  ∃ m ∈ p.table.covering rec.commitTs, p.table.isReclaimed m = true ∨ p.Holds m.shardId rec

instance (p : Pipeline) (rec : CommitRecord) : Decidable (p.Settled rec) := inferInstanceAs (Decidable (∃ _ ∈ _, _))

/-- The outboxes, the shards and the records ever written fit together. -/
structure Stored (p : Pipeline) : Prop where
  valid : p.table.Valid 1
  ordered : p.system.seq.Ordered
  record : ∀ rec ∈ p.records, rec.shardId = commitLogStagingShardId ∧ rec.commitTs ≠ 0 ∧ p.Decided rec.commitTs ∧
    rec.commitTs ≤ p.cursor rec.regionId
  unique : ∀ rec ∈ p.records, ∀ rec' ∈ p.records, rec.regionId = rec'.regionId → rec.commitTs = rec'.commitTs →
    rec = rec'
  outbox : ∀ (r : ℕ) (k : CommitLogKey) (rec : CommitRecord), (p.region r).commitLog.get k = some rec →
    rec.key = k ∧ rec ∈ p.records ∧ rec.regionId = r
  there : ∀ rec ∈ p.records,
    (p.region rec.regionId).commitLog.get rec.key = some rec ∨ rec.commitTs < p.table.gcBeforeTs
  rows : ∀ (shardId : ℕ) (k : CommitLogKey) (row : CommitRecord), (p.shard shardId).commitLog.get k = some row →
    row.key = k ∧ ∃ rec ∈ p.records, row = relabel shardId rec
  ship : ∀ z ∈ p.table.shards, ∀ rec ∈ p.records, z.startTs ≤ rec.commitTs →
    rec.commitTs ≤ p.shipped z.shardId rec.regionId → rec.commitTs < p.table.gcBeforeTs ∨ p.Holds z.shardId rec
  shipped_le : ∀ shardId r, p.shipped shardId r ≤ p.cursor r
  opened : ∀ shardId r, p.shipped shardId r ≠ 0 → ∃ z ∈ p.table.shards, z.shardId = shardId
  away : ∀ rec ∈ p.records, rec.regionId ∉ p.assembled → p.Settled rec

namespace Stored

variable {p : Pipeline} (h : p.Stored)

include h

lemma le_last {ts : ℕ} (hts : p.Decided ts) : ts ≤ p.last := by
  obtain ⟨d, hd⟩ := hts
  exact (h.ordered ts d hd).2

lemma record_le_last {rec : CommitRecord} (hrec : rec ∈ p.records) : rec.commitTs ≤ p.last :=
  h.le_last (h.record rec hrec).2.2.1

lemma keyed (r : ℕ) : Keyed (p.region r).commitLog := fun k rec hk => (h.outbox r k rec hk).1

lemma settled_of_lt_gc {rec : CommitRecord} (hrec : rec ∈ p.records) (hlt : rec.commitTs < p.table.gcBeforeTs) :
    p.Settled rec := by
  have hpos : 1 ≤ rec.commitTs := Nat.one_le_iff_ne_zero.2 (h.record rec hrec).2.1
  obtain ⟨m, hm, hgc⟩ := h.valid.covering_reclaimed hpos hlt
  exact ⟨m, hm, .inl hgc⟩

end Stored

end Pipeline

/-! ### Later states -/

/-- Up to `last` the shard of a timestamp stays the same one in the later table, and stays reclaimed. -/
def SameShards (last : ℕ) (t t' : CommitLogShardTable) : Prop :=
  ∀ ts ≤ last, ∀ m, t.covering ts = some m → ∃ m', t'.covering ts = some m' ∧ m'.shardId = m.shardId ∧
    m'.startTs = m.startTs ∧ (t.isReclaimed m = true → t'.isReclaimed m' = true)

lemma SameShards.refl (last : ℕ) (t : CommitLogShardTable) : SameShards last t t :=
  fun _ _ m hm => ⟨m, hm, rfl, rfl, id⟩

lemma SameShards.trans {last last' : ℕ} {t u w : CommitLogShardTable} (h : SameShards last t u)
    (h' : SameShards last' u w) (hle : last ≤ last') : SameShards last t w := by
  intro ts hts m hm
  obtain ⟨m₁, hm₁, hid₁, hlo₁, hgc₁⟩ := h ts hts m hm
  obtain ⟨m₂, hm₂, hid₂, hlo₂, hgc₂⟩ := h' ts (hts.trans hle) m₁ hm₁
  exact ⟨m₂, hm₂, hid₂.trans hid₁, hlo₂.trans hlo₁, fun hgc => hgc₂ (hgc₁ hgc)⟩

lemma sameShards_of_later {last start start' : ℕ} {t t' : CommitLogShardTable} (h : t.Later t') (hv : t.Valid start)
    (hv' : t'.Valid start') (hend : ∀ (i : ℕ) (m m' : CommitLogShardMeta), t.shards[i]? = some m →
      t'.shards[i]? = some m' → m.endTs = 0 → m'.endTs = 0 ∨ last < m'.endTs) : SameShards last t t' := by
  intro ts hts m hm
  obtain ⟨hmem, hcov⟩ := hv.covering_eq.1 hm
  obtain ⟨i, hi⟩ := List.mem_iff_getElem?.1 hmem
  obtain ⟨m', hi', hid, hlo, hhi, -⟩ := h.shard i m hi
  obtain ⟨hstart, hstop⟩ := of_decide_eq_true hcov
  have hcov' : m'.covers ts = true := by
    refine decide_eq_true ⟨by omega, ?_⟩
    by_cases hopen : m.endTs = 0
    · have := hend i m m' hi hi' hopen
      omega
    · rw [hhi hopen]
      exact hstop
  refine ⟨m', hv'.covering_eq.2 ⟨List.mem_of_getElem? hi', hcov'⟩, hid, hlo, fun hgc => ?_⟩
  obtain ⟨hne, hle⟩ := of_decide_eq_true hgc
  exact decide_eq_true ⟨by rwa [hhi hne], by rw [hhi hne]; exact hle.trans h.gc⟩

namespace Pipeline

/-- The Region has applied every decision up to `w`. -/
def Caught (p : Pipeline) (r w : ℕ) : Prop := ∀ ts, p.Decided ts → ts ≤ w → ts ≤ p.cursor r

/-- The watermarks that exist or may still come from what is under way. -/
def Bounds (p : Pipeline) (w : ℕ) : Prop := w ∈ p.watermarks ∨ ∃ s ∈ p.scans, w = s.decisionLast

/-- **What a step can do.**  Decisions come above the last one, cursors and shipments go forward, records come above
the cursor of a Region that is run, and a Region that joins has applied what the watermarks may cover. -/
structure Later (p p' : Pipeline) : Prop where
  table : p.table.Later p'.table
  shards : SameShards p.last p.table p'.table
  decisions : p.system.seq.Extends p'.system.seq
  cursor : ∀ r, p.cursor r ≤ p'.cursor r
  shipped : ∀ shardId r, p.shipped shardId r ≤ p'.shipped shardId r
  rows : ∀ (shardId : ℕ) (k : CommitLogKey) (row : CommitRecord),
    (p.shard shardId).commitLog.get k = some row → (p'.shard shardId).commitLog.get k = some row
  kept : ∀ rec ∈ p.records, rec ∈ p'.records
  added : ∀ rec ∈ p'.records, rec ∈ p.records ∨
    rec.regionId ∈ p.assembled ∧ p.Decided rec.commitTs ∧ p.cursor rec.regionId < rec.commitTs
  joined : ∀ r ∈ p'.assembled, r ∈ p.assembled ∨ ∀ w, p.Bounds w → p.Caught r w

variable {p p' : Pipeline} {r w : ℕ} {rec : CommitRecord}

lemma Later.last_le (h : p.Later p') : p.last ≤ p'.last := h.decisions.last

lemma Later.decided (h : p.Later p') {ts : ℕ} (hts : p'.Decided ts) : p.Decided ts ∨ p.last < ts := by
  obtain ⟨d, hd⟩ := hts
  exact (h.decisions.decisions.added ts d hd).imp_left fun hold => ⟨d, hold⟩

lemma Decided.later {ts : ℕ} (hts : p.Decided ts) (h : p.Later p') : p'.Decided ts := by
  obtain ⟨d, hd⟩ := hts
  exact ⟨d, h.decisions.decisions.keeps ts d hd⟩

lemma Settled.later (hs : p.Settled rec) (h : p.Later p') (hlast : rec.commitTs ≤ p.last) : p'.Settled rec := by
  obtain ⟨m, hm, hrec⟩ := hs
  obtain ⟨m', hm', hid, -, hgc⟩ := h.shards rec.commitTs hlast m hm
  refine ⟨m', hm', hrec.imp hgc fun hrow => ?_⟩
  rw [hid]
  exact h.rows _ _ _ hrow

variable {w' : ℕ}

lemma Caught.mono (hc : p.Caught r w) (hle : w' ≤ w) : p.Caught r w' :=
  fun ts hts hw => hc ts hts (hw.trans hle)

lemma Caught.later (hc : p.Caught r w) (h : p.Later p') (hw : w ≤ p.last) : p'.Caught r w := by
  intro ts hts hle
  rcases h.decided hts with hold | hnew
  · exact (hc ts hold hle).trans (h.cursor r)
  · omega

/-- Nothing of the Region up to `w` is under way. -/
structure Quiet (p : Pipeline) (r w : ℕ) : Prop where
  settled : ∀ rec ∈ p.records, rec.regionId = r → rec.commitTs ≤ w → p.Settled rec
  caught : r ∈ p.assembled → p.Caught r w

lemma Quiet.mono (hq : p.Quiet r w) (hle : w' ≤ w) : p.Quiet r w' :=
  ⟨fun rec hrec hr hw => hq.settled rec hrec hr (hw.trans hle), fun hr => (hq.caught hr).mono hle⟩

/-- **What is quiet stays quiet**: a new record is above the cursor, and so above `w`. -/
lemma Quiet.later (hq : p.Quiet r w) (hp : p.Stored) (h : p.Later p') (hw : w ≤ p.last) (hb : p.Bounds w) :
    p'.Quiet r w where
  settled rec hrec hr hle := by
    rcases h.added rec hrec with hold | ⟨hrun, hts, hlt⟩
    · exact (hq.settled rec hold hr hle).later h (hp.record_le_last hold)
    · subst hr
      have := hq.caught hrun rec.commitTs hts hle
      omega
  caught hr := by
    rcases h.joined r hr with hold | hnew
    · exact (hq.caught hold).later h hw
    · exact (hnew w hb).later h hw

/-! ### Shipments -/

/-- The shipment holds records of the Region for the shard, in order, and none is left out in between. -/
structure TaskOk (p : Pipeline) (t : ShipTask) : Prop where
  shard : ∃ z ∈ p.table.shards, z.shardId = t.shard.shardId ∧ z.startTs = t.shard.startTs
  records : ∀ y ∈ t.batches.flatten, ∃ rec ∈ p.records, y = relabel t.shard.shardId rec ∧ rec.regionId = t.regionId ∧
    t.shard.covers rec.commitTs = true
  sorted : t.batches.flatten.Pairwise fun a b => a.commitTs < b.commitTs
  dense : ∀ rec ∈ p.records, rec.regionId = t.regionId → t.shard.startTs ≤ rec.commitTs →
    ∀ y ∈ t.batches.flatten, rec.commitTs ≤ y.commitTs → rec.commitTs ≤ p.shipped t.shard.shardId t.regionId ∨
      relabel t.shard.shardId rec ∈ t.batches.flatten ∨ rec.commitTs < p.table.gcBeforeTs

lemma TaskOk.later {t : ShipTask} (ht : p.TaskOk t) (hp : p.Stored) (h : p.Later p') : p'.TaskOk t where
  shard := by
    obtain ⟨z, hz, hid, hlo⟩ := ht.shard
    obtain ⟨z', hz', hid', hlo'⟩ := h.table.mem hz
    exact ⟨z', hz', hid'.trans hid, hlo'.trans hlo⟩
  records y hy := by
    obtain ⟨rec, hrec, hrest⟩ := ht.records y hy
    exact ⟨rec, h.kept rec hrec, hrest⟩
  sorted := ht.sorted
  dense rec hrec hr hlo y hy hle := by
    rcases h.added rec hrec with hold | ⟨-, -, hlt⟩
    · rcases ht.dense rec hold hr hlo y hy hle with hs | hmem | hgc
      · exact .inl (hs.trans (h.shipped _ _))
      · exact .inr (.inl hmem)
      · exact .inr (.inr (hgc.trans_le h.table.gc))
    · -- the records of the shipment are at or below the cursor, a new one is above it
      obtain ⟨rec', hrec', rfl, hr', -⟩ := ht.records y hy
      have hcur := (hp.record rec' hrec').2.2.2
      rw [hr, ← hr'] at hlt
      change rec.commitTs ≤ rec'.commitTs at hle
      omega

/-! ### Watermarks under way -/

/-- The records of the Region that the shard covers, up to `w`, are settled. -/
def Shipped (p : Pipeline) (m : CommitLogShardMeta) (r w : ℕ) : Prop :=
  ∀ rec ∈ p.records, rec.regionId = r → m.covers rec.commitTs = true → rec.commitTs ≤ w → p.Settled rec

lemma Shipped.mono {m : CommitLogShardMeta} (hs : p.Shipped m r w) (hle : w' ≤ w) : p.Shipped m r w' :=
  fun rec hrec hr hcov hw => hs rec hrec hr hcov (hw.trans hle)

lemma Shipped.later {m : CommitLogShardMeta} (hs : p.Shipped m r w) (hp : p.Stored) (h : p.Later p')
    (hc : p.Caught r w) : p'.Shipped m r w := by
  intro rec hrec hr hcov hle
  rcases h.added rec hrec with hold | ⟨-, hts, hlt⟩
  · exact (hs rec hold hr hcov hle).later h (hp.record_le_last hold)
  · subst hr
    have := hc rec.commitTs hts hle
    omega

/-- The Regions that a scan does not read are quiet. -/
structure Outside (p : Pipeline) (last : ℕ) (regions : List ℕ) : Prop where
  last_le : last ≤ p.last
  quiet : ∀ r, r ∉ regions → p.Quiet r last

structure ScanTable (p : Pipeline) (last : ℕ) (table : CommitLogShardTable) : Prop where
  valid : table.Valid 1
  shards : SameShards last table p.table

/-- What a scan has established: for the Regions read, the decisions are applied; for the outboxes read, the records
are shipped. -/
inductive ScanOk (p : Pipeline) : WatermarkScan → Prop
  | regions {last : ℕ} {inFlight : List ℕ} (hlast : last ≤ p.last) : ScanOk p ⟨last, inFlight, .regions⟩
  | table {last : ℕ} {inFlight : List ℕ} {regions : List ℕ} (hout : p.Outside last regions) :
    ScanOk p ⟨last, inFlight, .table regions⟩
  | cursors {last : ℕ} {inFlight : List ℕ} {regions : List ℕ} {table : CommitLogShardTable} {todo : List ℕ}
      {applied : Option ℕ} (hout : p.Outside last regions) (htable : p.ScanTable last table)
      (hcaught : ∀ r ∈ regions, r ∈ todo ∨ p.Caught r (commitWatermark last inFlight).watermark)
      (happlied : ∀ a ∈ applied, ∀ r ∈ todo.head?, a ≤ p.cursor r) :
    ScanOk p ⟨last, inFlight, .cursors regions table todo applied⟩
  | outboxes {last : ℕ} {inFlight : List ℕ} {regions : List ℕ} {table : CommitLogShardTable}
      {todo : List (CommitLogShardMeta × Option ℕ)} {shipped : Option ℕ} (hout : p.Outside last regions)
      (htable : p.ScanTable last table)
      (hcaught : ∀ r ∈ regions, p.Caught r (commitWatermark last inFlight).watermark)
      (hshipped : ∀ r ∈ regions, ∀ m ∈ table.shards,
        (m, some r) ∈ todo ∨ p.Shipped m r (commitWatermark last inFlight).watermark)
      (hfloor : ∀ f ∈ shipped, ∀ x ∈ todo.head?, ∀ r ∈ x.2, f ≤ p.shipped x.1.shardId r) :
    ScanOk p ⟨last, inFlight, .outboxes regions table todo shipped⟩

lemma Outside.later {last : ℕ} {regions : List ℕ} (ho : p.Outside last regions) (hp : p.Stored) (h : p.Later p')
    (hb : p.Bounds last) : p'.Outside last regions :=
  ⟨ho.last_le.trans h.last_le, fun r hr => (ho.quiet r hr).later hp h ho.last_le hb⟩

lemma ScanTable.later {last : ℕ} {table : CommitLogShardTable} (ht : p.ScanTable last table) (h : p.Later p')
    (hlast : last ≤ p.last) : p'.ScanTable last table := ⟨ht.valid, ht.shards.trans h.shards hlast⟩

lemma ScanOk.later {s : WatermarkScan} (hs : p.ScanOk s) (hp : p.Stored) (h : p.Later p')
    (hb : p.Bounds s.decisionLast) :
    p'.ScanOk s := by
  cases hs with
  | regions hlast => exact .regions (hlast.trans h.last_le)
  | table hout => exact .table (hout.later hp h hb)
  | @cursors last inFlight regions table todo applied hout htable hcaught happlied =>
    have hw : (commitWatermark last inFlight).watermark ≤ p.last := (le_commitWatermark.1 le_rfl).1.trans hout.last_le
    exact .cursors (hout.later hp h hb) (htable.later h hout.last_le)
      (fun r hr => (hcaught r hr).imp_right fun hc => hc.later h hw)
      fun a ha r hr => (happlied a ha r hr).trans (h.cursor r)
  | @outboxes last inFlight regions table todo shipped hout htable hcaught hshipped hfloor =>
    have hw : (commitWatermark last inFlight).watermark ≤ p.last := (le_commitWatermark.1 le_rfl).1.trans hout.last_le
    exact .outboxes (hout.later hp h hb) (htable.later h hout.last_le) (fun r hr => (hcaught r hr).later h hw)
      (fun r hr m hm => (hshipped r hr m hm).imp_right fun hs => hs.later hp h (hcaught r hr))
      fun f hf x hx r hr => (hfloor f hf x hx r hr).trans (h.shipped _ _)

/-! ### The invariant -/

/-- **The invariant of the node.** -/
structure Inv (p : Pipeline) : Prop where
  stored : p.Stored
  tasks : ∀ t ∈ p.ships, p.TaskOk t
  scans : ∀ s ∈ p.scans, p.ScanOk s
  watermarks : ∀ w ∈ p.watermarks, w ≤ p.last ∧ ∀ r, p.Quiet r w
  published : p.system.commitWatermark = 0 ∨ p.system.commitWatermark ∈ p.watermarks

end Pipeline

end Coord.Kvt.Shipping
