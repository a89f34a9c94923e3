import Coord.Raft.Group
import Coord.Storage.ShardTiling

/-!
# The shard table along the log

Whatever the log of the system Region carries, its shard table is a row of shards, of which those below the reclaim
watermark are sealed.  The first shard is opened by the housekeeping of the leader, which opens it at timestamp `1`.
-/

namespace Coord.Storage.Store

lemma shardTable_applyCommitLogShardOp (s : Store) (mode : RevisionMode) (op : CommitLogShardOp) (revision : ℕ)
    (applied : AppliedLogId) : (s.applyCommitLogShardOp mode op revision applied).1.shardTable = s.shardTable ∨
      op.run s.shardTable = .ok ((s.applyCommitLogShardOp mode op revision applied).1.shardTable, true) := by
  have hnote : ({ s.noteLogIndexRevision mode revision with lastApplied := some applied } : Store).shardTable =
      s.shardTable := (congrArg shardTable (@outer_noteLogIndexRevision mode s revision) : _)
  unfold applyCommitLogShardOp
  dsimp only
  generalize ({ s.noteLogIndexRevision mode revision with lastApplied := some applied } : Store) = u at hnote
  rw [← hnote]
  split
  · next hrun => exact .inr hrun
  · exact .inl rfl
  · exact .inl rfl

end Coord.Storage.Store

namespace Coord.Raft

open Coord.Storage

theorem shardTable_applyEntry {cfg : Config} {nowMs : ℤ} {s s' : Store} {e : Entry} {r : Response}
    (h : applyEntry cfg nowMs s e = .ok (s', r)) :
    s'.shardTable = s.shardTable ∨ ∃ op, e.payload = .normal (.commitLogShard op) ∧
      op.run s.shardTable = .ok (s'.shardTable, true) := by
  rcases applyEntry_cases h with ⟨cmd, o, hp, -, ht⟩ | ⟨_, houter⟩
  · have hout := outside_executeCommand ht
    cases cmd with
    | commitLogShard op =>
      have hs' : (s.applyCommitLogShardOp cfg.mode op e.logId.index e.logId).1 = s' :=
        congrArg Prod.fst (Except.ok.inj ht)
      rcases Store.shardTable_applyCommitLogShardOp s cfg.mode op e.logId.index e.logId with hsame | hrun
      · exact .inl (hs' ▸ hsame)
      · exact .inr ⟨op, hp, hs' ▸ hrun⟩
    | _ => exact .inl (congrArg Store.shardTable hout : _)
  · exact .inl (congrArg Store.shardTable houter : _)

/-- The first shard is opened at timestamp `1`, as the housekeeping of the leader does. -/
def OpensAtOne (s : Store) (e : Entry) : Prop :=
  match e.payload with
  | .normal (.commitLogShard (.open startTs _)) => s.shardTable.shards = [] → startTs = 1
  | _ => True

instance (s : Store) (e : Entry) : Decidable (OpensAtOne s e) := by
  unfold OpensAtOne
  split <;> infer_instance

section

variable {cfg : Config} {nowMs : ℤ} {s s' : Store} {e : Entry} {r : Response} {start : ℕ}

section

variable (h : applyEntry cfg nowMs s e = .ok (s', r))
include h

lemma shardChange_applyEntry : s'.shardTable = s.shardTable ∨ ∃ op, ShardChange op s.shardTable s'.shardTable := by
  rcases shardTable_applyEntry h with hsame | ⟨op, -, hrun⟩
  · exact .inl hsame
  · rcases CommitLogShardOp.run_ok hrun with ⟨-, hfalse⟩ | ⟨-, hchange⟩
    · cases hfalse
    · exact .inr ⟨op, hchange⟩

lemma valid_applyEntry (hs : ∃ start, s.shardTable.Valid start) : ∃ start, s'.shardTable.Valid start := by
  obtain ⟨start, hv⟩ := hs
  rcases shardTable_applyEntry h with hsame | ⟨op, -, hrun⟩
  · exact ⟨start, by rwa [hsame]⟩
  · exact hv.exists_run hrun

lemma valid_one_applyEntry (hopen : OpensAtOne s e) (hv : s.shardTable.Valid 1) : s'.shardTable.Valid 1 := by
  rcases shardTable_applyEntry h with hsame | ⟨op, hp, hrun⟩
  · rwa [hsame]
  refine hv.run hrun fun hnil startTs nowMs hop => ?_
  subst hop
  unfold OpensAtOne at hopen
  rw [hp] at hopen
  exact hopen hnil

lemma keeps_applyEntry (hv : s.shardTable.Valid start) :
    (∀ m ∈ s.shardTable.shards, m.sealedAtMs ≠ 0 → m ∈ s'.shardTable.shards) ∧
      s.shardTable.gcBeforeTs ≤ s'.shardTable.gcBeforeTs ∧
      ∀ boundary, SealedBelow s.shardTable.shards boundary → SealedBelow s'.shardTable.shards boundary := by
  rcases shardChange_applyEntry h with hsame | ⟨op, hchange⟩
  · rw [hsame]
    exact ⟨fun m hm _ => hm, Nat.le_refl _, fun _ hb => hb⟩
  · obtain ⟨start', hv'⟩ := valid_applyEntry h ⟨start, hv⟩
    exact ⟨fun m hm hseal => hchange.sealed_mem hv hm hseal, hchange.gcBeforeTs_le,
      fun boundary hb => hchange.sealedBelow hv hv'.chain hb⟩

end

end

section

variable {cfg : Config} {clock : ℕ → ℤ} {s : Store}

lemma keeps_applyEntries {es : List Entry} (hv : ∃ start, s.shardTable.Valid start) :
    (∀ m ∈ s.shardTable.shards, m.sealedAtMs ≠ 0 → m ∈ (applyEntries cfg clock s es).1.shardTable.shards) ∧
      s.shardTable.gcBeforeTs ≤ (applyEntries cfg clock s es).1.shardTable.gcBeforeTs ∧
      ∀ boundary, SealedBelow s.shardTable.shards boundary →
        SealedBelow (applyEntries cfg clock s es).1.shardTable.shards boundary := by
  induction es generalizing s with
  | nil => exact ⟨fun m hm _ => hm, Nat.le_refl _, fun _ hb => hb⟩
  | cons e es ih =>
    unfold applyEntries
    split
    · exact ⟨fun m hm _ => hm, Nat.le_refl _, fun _ hb => hb⟩
    next s₁ r he =>
    obtain ⟨hmem, hgc, hsealed⟩ := keeps_applyEntry he hv.choose_spec
    obtain ⟨hmem', hgc', hsealed'⟩ := ih (valid_applyEntry he hv)
    exact ⟨fun m hm hseal => hmem' m (hmem m hm hseal) hseal, Nat.le_trans hgc hgc',
      fun boundary hb => hsealed' boundary (hsealed boundary hb)⟩

/-- **The shard table along every log of the system Region.**  The shards lie in a row under consecutive ids, from
timestamp `1` on when the first one is opened there; only the last may be unbounded, no timestamp has two shards, and
the shards below the reclaim watermark are sealed and end there or before.  From one point of the log to a later one a
sealed shard stays as it is, the watermark does not fall, and a boundary that the planner proposed is accepted.  Only
an accepted operation changes the table. -/
theorem shardTable_log (cfg : Config) (clock : ℕ → ℤ) (es : List Entry) :
    (∀ t, t = (applyEntries cfg clock Store.empty es).1.shardTable →
      t.validate = .ok () ∧ (∃ start, shardEnds.Chain start t.shards) ∧
      (AlongLog cfg clock OpensAtOne Store.empty es → shardEnds.Chain 1 t.shards) ∧
      (∀ m ∈ t.shards, m.endTs = 0 → t.latest = some m) ∧
      (∀ ts, ∀ m ∈ t.shards, ∀ m' ∈ t.shards, m.covers ts = true → m'.covers ts = true → m = m') ∧
      ∀ m ∈ t.shards, m.startTs < t.gcBeforeTs → m.sealedAtMs ≠ 0 ∧ m.endTs ≠ 0 ∧ m.endTs ≤ t.gcBeforeTs) ∧
    (∀ pre post s s', es = pre ++ post → applyEntries cfg clock Store.empty pre = (s, none) →
      s' = (applyEntries cfg clock s post).1 →
      (∀ m ∈ s.shardTable.shards, m.sealedAtMs ≠ 0 → m ∈ s'.shardTable.shards) ∧
      s.shardTable.gcBeforeTs ≤ s'.shardTable.gcBeforeTs ∧
      ∀ watermark nowMs retentionSecs boundary,
        gcBoundary s.shardTable watermark nowMs retentionSecs = some boundary →
        s.shardTable.gcBeforeTs < boundary ∧ s'.shardTable.advanceGc boundary = .ok
          (if boundary ≤ s'.shardTable.gcBeforeTs then (s'.shardTable, false)
            else ({ s'.shardTable with gcBeforeTs := boundary }, true))) ∧
    (∀ pre e post s s' r, es = pre ++ e :: post → applyEntries cfg clock Store.empty pre = (s, none) →
      applyEntry cfg (clock e.logId.index) s e = .ok (s', r) → s'.shardTable ≠ s.shardTable →
      ∃ op, e.payload = .normal (.commitLogShard op) ∧ op.run s.shardTable = .ok (s'.shardTable, true)) := by
  have hempty : Store.empty.shardTable.Valid 1 := CommitLogShardTable.valid_default Nat.one_pos
  have hvalid : ∀ es, ∃ start, (applyEntries cfg clock Store.empty es).1.shardTable.Valid start := fun es =>
    applyEntries_inv (fun s => ∃ start, s.shardTable.Valid start) ⟨1, hempty⟩
      fun s e _ s' r h hs => valid_applyEntry h hs
  refine ⟨?_, ?_, ?_⟩
  · rintro t rfl
    obtain ⟨start, hv⟩ := hvalid es
    refine ⟨hv.validate, ⟨start, hv.chain⟩, fun hone => ?_, fun m hm h0 => hv.chain.getLast?_of_top hm h0,
      fun ts m hm m' hm' hc hc' => hv.chain.unique hm hm' (covers_iff.1 hc) (covers_iff.1 hc'), fun m hm hlt => ?_⟩
    · exact (applyEntries_along_inv (fun s => s.shardTable.Valid 1) hempty hone
        fun s e s' r h hopen hs => valid_one_applyEntry h hopen hs).chain
    · have hgc := hv.gc (Nat.ne_zero_of_lt hlt)
      exact ⟨hgc.sealed m hm hlt, hv.le_boundary hgc hm hlt⟩
  · rintro pre post s s' rfl hpre rfl
    have hs : ∃ start, s.shardTable.Valid start := by
      have := hvalid pre
      rwa [hpre] at this
    have hs' : ∃ start, (applyEntries cfg clock s post).1.shardTable.Valid start :=
      applyEntries_inv (fun s => ∃ start, s.shardTable.Valid start) hs fun s e _ s' r h hs => valid_applyEntry h hs
    obtain ⟨hmem, hgc, hsealed⟩ := @keeps_applyEntries cfg clock s post hs
    refine ⟨hmem, hgc, fun watermark nowMs retentionSecs boundary hb => ?_⟩
    obtain ⟨hlt, hbelow⟩ := gcBoundary_sealedBelow hs.choose_spec hb
    exact ⟨hlt, (hsealed boundary hbelow).advanceGc hs'.choose_spec⟩
  · rintro pre e post s s' r - - he hne
    rcases shardTable_applyEntry he with hsame | hop
    · exact absurd hsame hne
    · exact hop

end

/-! ### Replicas -/

namespace Group

variable (g : Group)

/-- The table that a replica of the system Region has. -/
def tableAt (n : ℕ) : CommitLogShardTable := (g.storeAt n).shardTable

lemma valid_tableAt (n : ℕ) : ∃ start, (g.tableAt n).Valid start :=
  g.storeAt_inv (fun s => ∃ start, s.shardTable.Valid start) ⟨1, CommitLogShardTable.valid_default Nat.one_pos⟩
    (fun _ _ _ _ h hs => valid_applyEntry h hs) n

theorem later_tableAt {n k : ℕ} (hle : n ≤ k) : (g.tableAt n).Later (g.tableAt k) := by
  refine (g.storeAt_mono (fun s t => (∃ start, s.shardTable.Valid start) →
    (∃ start, t.shardTable.Valid start) ∧ s.shardTable.Later t.shardTable) ?_ ?_ ?_ hle (g.valid_tableAt n)).2
  · exact fun s hs => ⟨hs, .refl _⟩
  · exact fun s t u hst htu hs => ⟨(htu (hst hs).1).1, (hst hs).2.trans (htu (hst hs).1).2⟩
  · rintro s e s' r h ⟨start, hv⟩
    refine ⟨valid_applyEntry h ⟨start, hv⟩, ?_⟩
    rcases shardChange_applyEntry h with hsame | ⟨op, hchange⟩
    · rw [hsame]
      exact .refl _
    · exact hchange.later hv

lemma startTs_tableAt {n k : ℕ} {m z : CommitLogShardMeta} (hm : m ∈ (g.tableAt n).shards)
    (hz : z ∈ (g.tableAt k).shards) (hid : m.shardId = z.shardId) : m.startTs = z.startTs := by
  obtain ⟨_, hvn⟩ := g.valid_tableAt n
  obtain ⟨_, hvk⟩ := g.valid_tableAt k
  rcases Nat.le_total n k with hle | hle
  · exact ((g.later_tableAt hle).startTs_eq hvk hm hz hid).symm
  · exact (g.later_tableAt hle).startTs_eq hvn hz hm hid.symm

end Group

def shardEntry (index : ℕ) (op : CommitLogShardOp) : Entry := ⟨⟨1, 1, index⟩, .normal (.commitLogShard op)⟩

/-- A log that opens the first shard at `1`, and the row it leaves. -/
theorem shardTable_log_opened :
    let es := [shardEntry 1 (.open 1 10), shardEntry 2 (.setEnd 1 7 20), shardEntry 3 (.open 7 20),
      shardEntry 4 (.seal 1 30), shardEntry 5 (.gc 7)]
    AlongLog plainConfig (fun _ => 0) OpensAtOne Store.empty es ∧
      shardEnds.Chain 1 (applyEntries plainConfig (fun _ => 0) Store.empty es).1.shardTable.shards :=
  ⟨by decide +kernel, ((shardTable_log plainConfig (fun _ => 0) _).1 _ rfl).2.2.1 (by decide +kernel)⟩

/-- The empty table takes a first shard from any timestamp on. -/
theorem shardTable_opened_at_five :
    let t := (applyEntries plainConfig (fun _ => 0) Store.empty [shardEntry 1 (.open 5 10)]).1.shardTable
    ¬ shardEnds.Chain 1 t.shards := by
  intro t hchain
  have hstart : t.shards.head?.map (·.startTs) = some 5 := by decide +kernel
  cases hrow : t.shards with
  | nil => simp [hrow] at hstart
  | cons m rest =>
    rw [hrow] at hchain hstart
    exact absurd (hchain.1.symm.trans (Option.some.inj hstart)) (by decide)

end Coord.Raft
