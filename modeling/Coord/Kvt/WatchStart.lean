import Coord.Kvt.Watch
import Coord.Raft.ShardTableLog

/-!
# Where a watch starts

A watch is a position and polls from it, on any node and after any interruption; each call reads what the replicas of
its node hold.  A watch that starts at a revision must not deliver anything before it.  The start is looked up in the
shard table, and what the table does not reach yet is taken for the beginning: the watch then delivers the whole
history.
-/

namespace Coord.Kvt.Watch

open Coord.Lib Coord.Storage Coord.Raft List

/-! ### Watches -/

/-- The groups a watch reads from: the system Region, and one for each shard. -/
structure Groups where
  system : Group
  shard : ℕ → Group

/-- How much of each log the replicas of the node have applied when a call reads them. -/
structure WatchReads where
  tableAt : ℕ
  watermark : Option ℕ
  shardAt : ℕ → ℕ → Option ℕ
  freshAt : Option ℕ

def Groups.view (g : Groups) (r : WatchReads) : WatchView where
  table := g.system.tableAt r.tableAt
  watermark := r.watermark
  shard i id := (r.shardAt i id).map (g.shard id).storeAt
  fresh := r.freshAt.map g.system.tableAt

/-- A poll from one of the positions that the watch was given. -/
structure WatchPoll where
  resume : ℕ
  limits : WatchLimits
  filter : WatchFilter
  reads : WatchReads

/-- The positions given out so far, with the one after the poll. -/
def watchStep (g : Groups) (given : List WatchCursor) (p : WatchPoll) :
    List WatchCursor × Option (Except WatchError WatchBatch) :=
  match given[p.resume]? with
  | none => (given, none)
  | some c =>
    match poll p.limits p.filter (g.view p.reads) c with
    | .error e => (given, some (.error e))
    | .ok batch => (given ++ [batch.cursor], some (.ok batch))

/-- The last timestamp that a watch without a position does not want; `watermark` is read when it starts from now. -/
def WatchStart.position (s : WatchStart) (watermark : ℕ) : ℕ :=
  if s.startRevision = 0 then watermark else s.startRevision - 1

/-! ### The condition -/

/-- The last shard of the table is unbounded or ends above the timestamp. -/
def Reaches (t : CommitLogShardTable) (ts : ℕ) : Prop :=
  (t.latest.any fun m => decide (m.endTs = 0 ∨ ts < m.endTs)) = true

instance (t : CommitLogShardTable) (ts : ℕ) : Decidable (Reaches t ts) := inferInstanceAs (Decidable (_ = _))

/-- When the watch starts, the table reaches beyond what it does not want, unless that is nothing; a table of which a
part has been reclaimed refuses such a start by itself. -/
def StartReaches (t : CommitLogShardTable) (ts : ℕ) : Prop := ts = 0 ∨ t.gcBeforeTs ≠ 0 ∨ Reaches t ts

instance (t : CommitLogShardTable) (ts : ℕ) : Decidable (StartReaches t ts) := inferInstanceAs (Decidable (_ ∨ _))

/-- At a poll the table reaches beyond the position, or the position is in its last shard. -/
def PollReaches (g : Groups) (given : List WatchCursor) (p : WatchPoll) : Prop :=
  ∀ c ∈ given[p.resume]?, Reaches (g.system.tableAt p.reads.tableAt) c.commitTs ∨
    (g.system.tableAt p.reads.tableAt).shards.length ≤ c.shardId

instance (g : Groups) (given : List WatchCursor) (p : WatchPoll) : Decidable (PollReaches g given p) := by
  unfold PollReaches
  infer_instance

/-! ### The reading goes forward -/

/-- Every record that a call reads stands under its key. -/
def WatchView.Keyed (v : WatchView) : Prop := ∀ i id s, v.shard i id = some s → Storage.Keyed s.commitLog

lemma Groups.keyed_view (g : Groups) (r : WatchReads) : (g.view r).Keyed := by
  intro i id s hs
  obtain ⟨n, -, rfl⟩ := Option.map_eq_some_iff.1 hs
  exact (g.shard id).keyed_storeAt n

/-- What is read when the reading of a shard stops. -/
def ScanOutcome.after : ScanOutcome → ℕ
  | .done after => after
  | .full after => after

/-- The events are all after `lo`. -/
def BatchBuilder.After (lo : ℕ) (b : BatchBuilder) : Prop := ∀ e ∈ b.events, lo < e.commitTs

variable {b' : BatchBuilder}

lemma BatchBuilder.After.tryPush {lo : ℕ} {limits : WatchLimits} {b : BatchBuilder} {e : WatchEvent}
    (hb : b.After lo) (he : lo < e.commitTs) (h : b.tryPush limits e = some b') : b'.After lo := by
  unfold BatchBuilder.tryPush at h
  split at h
  · cases h
  · cases h
    exact forall_mem_append_one hb he

lemma fromRecords_commitTs {ts : ℕ} {records : List CommitRecord} {f : WatchFilter} {e : WatchEvent}
    (h : WatchEvent.fromRecords ts records f = some e) : e.commitTs = ts := by
  unfold WatchEvent.fromRecords at h
  dsimp only at h
  split at h
  · cases h
  · cases h
    rfl

variable {rest : List CommitLogShardMeta}

section

variable {limits : WatchLimits} {filter : WatchFilter} {v : WatchView} {m : CommitLogShardMeta} {lo : ℕ}

variable {i after : ℕ} {b : BatchBuilder}

lemma scanShard_after (hv : v.Keyed) {bound rounds i' : ℕ} {o : ScanOutcome}
    (h : scanShard limits filter v m bound rounds i after b = .ok (o, b', i')) (hlo : lo ≤ after) (hb : b.After lo) :
    lo ≤ o.after ∧ b'.After lo := by
  induction rounds generalizing i after b with
  | zero =>
    cases h
    exact ⟨hlo, hb⟩
  | succ rounds ih =>
    unfold scanShard at h
    split at h
    · cases h
    next s hs =>
    split at h
    · cases h
      exact ⟨hlo, hb⟩
    next first hfirst =>
    have hts : after < first.commitTs := (Store.mem_commitRecordsAfter (hv _ _ _ hs) (mem_of_head? hfirst)).2.2
    split at h
    · cases h
      exact ⟨hlo, hb⟩
    split at h
    · cases h
    dsimp only at h
    split at h
    · cases h
    split at h
    · exact ih h (by omega) hb
    next event hevent =>
    have he : lo < event.commitTs := by
      rw [fromRecords_commitTs hevent]
      omega
    split at h
    · cases h
      exact ⟨hlo, hb⟩
    · next hpush => exact ih h (by omega) (hb.tryPush he hpush)

lemma readShard_after (hv : v.Keyed) {watermark i' : ℕ} {o : ScanOutcome}
    (h : readShard limits filter v watermark i after b m = .ok (o, b', i')) (hlo : lo ≤ max after (m.startTs - 1))
    (hb : b.After lo) : lo ≤ o.after ∧ b'.After lo := by
  unfold readShard at h
  dsimp only at h
  split at h
  · exact scanShard_after hv h hlo hb
  · cases h
    exact ⟨hlo, hb⟩

/-- **The loop goes forward**: from a position past `lo`, and into shards that start past it. -/
lemma pollLoop_after (hv : v.Keyed) {watermark : ℕ}
    {e : PollEnd} (h : pollLoop limits filter v watermark i after b m rest = .ok e)
    (hlo : lo ≤ max after (m.startTs - 1)) (hrest : ∀ n ∈ rest, lo < n.startTs) (hb : b.After lo) :
    lo ≤ e.after ∧ e.builder.After lo ∧ e.shard ∈ m :: rest := by
  induction rest generalizing i after b m with
  | nil =>
    unfold pollLoop at h
    split at h
    · cases h
    all_goals
      next hread =>
        obtain ⟨hafter, hb'⟩ := readShard_after hv hread hlo hb
        cases h
        exact ⟨hafter, hb', mem_cons_self⟩
  | cons next rest ih =>
    unfold pollLoop at h
    split at h
    · cases h
    · next hread =>
      obtain ⟨hafter, hb'⟩ := readShard_after hv hread hlo hb
      cases h
      exact ⟨hafter, hb', mem_cons_self⟩
    · next hread =>
      obtain ⟨hafter, hb'⟩ := readShard_after hv hread hlo hb
      dsimp only at h
      split at h
      · have hnext := hrest next mem_cons_self
        obtain ⟨h₁, h₂, h₃⟩ := ih h (by omega) (fun n hn => hrest n (mem_cons_of_mem _ hn)) hb'
        exact ⟨h₁, h₂, mem_cons_of_mem _ h₃⟩
      · cases h
        exact ⟨hafter, hb', mem_cons_self⟩

end

/-! ### Positions -/

/-- The position is past `lo`: by its timestamp, or because its shard starts past it.  The beginning is before the
first shard. -/
def PastIn (t : CommitLogShardTable) (lo : ℕ) (c : WatchCursor) : Prop :=
  lo = 0 ∨ c.shardId ≠ 0 ∧ lo ≤ c.commitTs ∨ ∀ m ∈ t.shards, m.shardId = max c.shardId 1 → lo < m.startTs

section

variable {t : CommitLogShardTable} {first : ℕ} {m : CommitLogShardMeta} {lo : ℕ}

variable {ts : ℕ}

lemma reaches_iff : Reaches t ts ↔ ∃ z, t.latest = some z ∧ (z.endTs = 0 ∨ ts < z.endTs) := by
  unfold Reaches
  cases t.latest <;> simp

lemma Reaches.covers (h : Reaches t ts) (hv : t.Valid first) (hle : first ≤ ts) :
    ∃ m ∈ t.shards, m.covers ts = true := by
  obtain ⟨z, hz, hend⟩ := reaches_iff.1 h
  obtain ⟨m, hm, hcov⟩ := hv.chain.exists_covers (mem_of_getLast? hz) hend hle
  exact ⟨m, hm, covers_iff.2 hcov⟩

lemma starts_after (hv : t.Valid first) {index : ℕ}
    (hdrop : t.shards.drop index = m :: rest) : ∀ n ∈ rest, m.endTs ≠ 0 ∧ m.endTs ≤ n.startTs ∧
      m.startTs < n.startTs := by
  intro n hn
  have hm : m ∈ t.shards := mem_of_mem_drop (hdrop ▸ mem_cons_self)
  have hpair := hv.chain.pairwise.sublist (drop_sublist index t.shards)
  rw [hdrop] at hpair
  obtain ⟨hend, hle⟩ := (pairwise_cons.1 hpair).1 n hn
  exact ⟨hend, hle, (hv.startTs_lt hm hend).trans_le hle⟩

lemma getElem?_of_drop {α : Type} {l : List α} {i : ℕ} {a : α} {rest : List α} (h : l.drop i = a :: rest) :
    l[i]? = some a := by
  rw [← Nat.add_zero i, ← getElem?_drop, h]
  rfl

/-- **From a position past `lo` the reading starts past it**, and so do the shards after. -/
lemma resolvePosition_past (hv : t.Valid first) {c : WatchCursor} {index after : ℕ}
    (h : resolvePosition t c = .ok (index, after)) (hreach : Reaches t c.commitTs ∨ t.shards.length ≤ c.shardId)
    (hpast : PastIn t lo c) (hdrop : t.shards.drop index = m :: rest) :
    lo ≤ max after (m.startTs - 1) ∧ ∀ n ∈ rest, lo < n.startTs := by
  have hrest := starts_after hv hdrop
  have hat := getElem?_of_drop hdrop
  have hid := hv.ids index m hat
  have hmem : m ∈ t.shards := mem_of_getElem? hat
  -- a position before the start of the shard
  have hbefore : lo < m.startTs → lo ≤ max after (m.startTs - 1) ∧ ∀ n ∈ rest, lo < n.startTs := fun hlt =>
    ⟨by omega, fun n hn => hlt.trans (hrest n hn).2.2⟩
  -- a position in the shard
  have hin : lo ≤ c.commitTs → after = c.commitTs → (m.endTs ≠ 0 → c.commitTs < m.endTs) →
      lo ≤ max after (m.startTs - 1) ∧ ∀ n ∈ rest, lo < n.startTs := fun hle hafter hend =>
    ⟨by omega, fun n hn => by have := hrest n hn; have := hend this.1; omega⟩
  unfold resolvePosition at h
  split at h
  · next hnil =>
    rw [hnil] at hat
    cases hat
  split at h
  · next hzero =>
    cases h
    rcases hpast with rfl | ⟨hne, -⟩ | hstart
    · exact ⟨Nat.zero_le _, fun n hn => Nat.lt_of_le_of_lt (Nat.zero_le _) (hrest n hn).2.2⟩
    · exact absurd hzero hne
    · exact hbefore (hstart m hmem (by omega))
  next hzero =>
  split at h
  · cases h
  next own hown =>
  split at h
  · cases h
  next z hz =>
  have hzid := hv.ids own z hz
  obtain ⟨hlt, hfound, -⟩ := findIdx?_eq_some_iff_getElem.1 hown
  have hzc : z.shardId = c.shardId := by
    rw [getElem?_eq_getElem hlt] at hz
    exact Option.some.inj hz ▸ of_decide_eq_true hfound
  have hzmem : z ∈ t.shards := mem_of_getElem? hz
  -- when the position is not before its shard, it is past `lo` by its timestamp
  have hts : z.startTs ≤ c.commitTs → lo ≤ c.commitTs := by
    rcases hpast with rfl | ⟨-, hle⟩ | hstart
    · exact fun _ => Nat.zero_le _
    · exact fun _ => hle
    · have := hstart z hzmem (by omega)
      omega
  split at h
  · next hlow =>
    cases h
    obtain rfl : z = m := Option.some.inj (hz.symm.trans hat)
    have hpos : first ≤ z.startTs := hv.chain.start_le z hzmem
    have := hv.positive
    rcases hpast with rfl | ⟨-, hle⟩ | hstart
    · exact hbefore (by omega)
    · exact hbefore (by omega)
    · exact hbefore (hstart z hzmem (by omega))
  next hlow =>
  split at h
  · next hended =>
    split at h
    · next cover hcover =>
      obtain ⟨rfl, rfl⟩ := Prod.mk.inj (Except.ok.inj h)
      obtain ⟨hlt', hcov, -⟩ := findIdx?_eq_some_iff_getElem.1 hcover
      have hm : t.shards[cover] = m := by
        rw [getElem?_eq_getElem hlt'] at hat
        exact Option.some.inj hat
      rw [hm] at hcov
      exact hin (hts (by omega)) rfl fun hne => (covers_iff.1 hcov).2.resolve_left hne
    · next hnone =>
      cases h
      obtain rfl : z = m := Option.some.inj (hz.symm.trans hat)
      rcases hreach with hreach | hlast
      · have hpos : first ≤ z.startTs := hv.chain.start_le z hzmem
        obtain ⟨y, hy, hcov⟩ := hreach.covers hv (by omega)
        rw [findIdx?_eq_none_iff.1 hnone y hy] at hcov
        cases hcov
      · -- the last shard has none after it
        have hnil : rest = [] := by
          have hlen := congrArg List.length hdrop
          rw [length_drop, length_cons] at hlen
          exact length_eq_zero_iff.1 (by omega)
        rw [hnil]
        exact ⟨by have := hts (by omega); omega, by simp⟩
  · next hended =>
    cases h
    obtain rfl : z = m := Option.some.inj (hz.symm.trans hat)
    exact hin (hts (by omega)) rfl (by omega)

lemma shardId_ne_zero (hv : t.Valid first) (hm : m ∈ t.shards) : m.shardId ≠ 0 := by
  obtain ⟨i, hi⟩ := mem_iff_getElem?.1 hm
  have := hv.ids i m hi
  omega

lemma startTs_ne_zero (hv : t.Valid first) (hm : m ∈ t.shards) : 0 < m.startTs :=
  hv.positive.trans_le (hv.chain.start_le m hm)

lemma positionBefore_cases (t : CommitLogShardTable) (ts : ℕ) :
    (∃ m ∈ t.shards, m.covers ts = true ∧ positionBefore t ts = ⟨m.shardId, ts⟩) ∨
      positionBefore t ts = .beginning ∧ (ts = 0 ∨ ∀ m ∈ t.shards, m.covers ts ≠ true) := by
  unfold positionBefore
  split
  · next h =>
    refine .inr ⟨rfl, h.imp id fun hnil m hm => ?_⟩
    rw [hnil] at hm
    cases hm
  · split
    · next hnone => exact .inr ⟨rfl, .inr (find?_eq_none.1 hnone)⟩
    next m hm =>
    have hcov : m.covers ts = true := find?_eq_some_iff_append.1 hm |>.1
    have hle : m.startTs ≤ ts := (covers_iff.1 hcov).1
    rw [if_neg (by omega)]
    exact .inl ⟨m, mem_of_find?_eq_some hm, hcov, rfl⟩

lemma ensureAvailable_beginning (hv : t.Valid first) (hgc : t.gcBeforeTs ≠ 0) :
    ensureAvailable t .beginning ≠ .ok () := by
  obtain ⟨-, ⟨z, hz, hend⟩, -⟩ := hv.gc hgc
  have hlt := hv.startTs_lt hz (by omega)
  have hpos := startTs_ne_zero hv hz
  have hnone : t.shards.find? (fun m => decide (m.shardId = WatchCursor.beginning.shardId)) = none :=
    find?_eq_none.2 fun m hm h => shardId_ne_zero hv hm (of_decide_eq_true h)
  have hfirst : firstUnread t .beginning = 1 := by
    rw [firstUnread, hnone]
    rfl
  rw [ensureAvailable, hfirst, if_neg (by omega)]
  simp

lemma positionBefore_past (hv : t.Valid first) (hstart : StartReaches t ts)
    (hok : ensureAvailable t (positionBefore t ts) = .ok ()) : PastIn t ts (positionBefore t ts) := by
  rcases positionBefore_cases t ts with ⟨m, hm, -, hpos⟩ | ⟨hpos, hnone⟩
  · rw [hpos]
    exact .inr (.inl ⟨shardId_ne_zero hv hm, le_rfl⟩)
  rw [hpos] at hok ⊢
  rcases hstart with rfl | hgc | hreach
  · exact .inl rfl
  · exact absurd hok (ensureAvailable_beginning hv hgc)
  rcases hnone with rfl | hnone
  · exact .inl rfl
  -- what the table reaches without a shard for it is before the first one
  refine .inr (.inr fun m hm _ => ?_)
  by_contra hle
  obtain ⟨z, hz, hcov⟩ := hreach.covers hv ((hv.chain.start_le m hm).trans (Nat.not_lt.1 hle))
  exact hnone z hz hcov

end

/-! ### Watches from their start -/

/-- The position is past `lo` in some table of the system Region. -/
def Past (g : Groups) (lo : ℕ) (c : WatchCursor) : Prop :=
  lo = 0 ∨ c.shardId ≠ 0 ∧ lo ≤ c.commitTs ∨
    ∃ n, ∃ m ∈ (g.system.tableAt n).shards, m.shardId = max c.shardId 1 ∧ lo < m.startTs

section

variable {g : Groups} {lo : ℕ} {c : WatchCursor}

lemma Past.pastIn (h : Past g lo c) (n : ℕ) : PastIn (g.system.tableAt n) lo c := by
  rcases h with h | h | ⟨k, m, hm, hid, hlt⟩
  · exact .inl h
  · exact .inr (.inl h)
  · refine .inr (.inr fun z hz hzid => ?_)
    rwa [← g.system.startTs_tableAt hm hz (hid.trans hzid.symm)]

lemma PastIn.past {n : ℕ} (h : PastIn (g.system.tableAt n) lo c) (hne : (g.system.tableAt n).shards ≠ [] ∨ lo = 0)
    (hid : c.shardId = 0 ∨ ∃ m ∈ (g.system.tableAt n).shards, m.shardId = c.shardId) : Past g lo c := by
  rcases h with h | h | h
  · exact .inl h
  · exact .inr (.inl h)
  rcases hid with hzero | ⟨m, hm, hmid⟩
  · rcases hne with hne | rfl
    · obtain ⟨_, hv⟩ := g.system.valid_tableAt n
      obtain ⟨m, rest, hcons⟩ := exists_cons_of_ne_nil hne
      have hat : (g.system.tableAt n).shards[0]? = some m := by rw [hcons]; rfl
      have hmid := hv.ids 0 m hat
      have hm := mem_of_getElem? hat
      exact .inr (.inr ⟨n, m, hm, by omega, h m hm (by omega)⟩)
    · exact .inl rfl
  · obtain ⟨_, hv⟩ := g.system.valid_tableAt n
    have := shardId_ne_zero hv hm
    exact .inr (.inr ⟨n, m, hm, by omega, h m hm (by omega)⟩)

variable {reads : WatchReads}

section

variable {limits : WatchLimits} {filter : WatchFilter} {batch : WatchBatch} (hpast : Past g lo c)
  (hreach : Reaches (g.system.tableAt reads.tableAt) c.commitTs ∨
    (g.system.tableAt reads.tableAt).shards.length ≤ c.shardId)
include hpast hreach

lemma pollWithTable_past (h : pollWithTable limits filter (g.view reads) c = .ok batch) :
    (∀ e ∈ batch.events, lo < e.commitTs) ∧ Past g lo batch.cursor := by
  obtain ⟨first, hv⟩ := g.system.valid_tableAt reads.tableAt
  simp only [pollWithTable, bind, Except.bind, pure, Except.pure] at h
  split at h
  · cases h
  split at h
  · cases h
  split at h
  · cases h
  split at h
  · cases h
    exact ⟨by simp, hpast⟩
  split at h
  · cases h
  next r hr =>
  obtain ⟨index, after⟩ := r
  dsimp only at h
  split at h
  · cases h
  next m rest hdrop =>
  split at h
  · cases h
  next e he =>
  cases h
  obtain ⟨hlo, hrest⟩ := resolvePosition_past hv hr hreach (hpast.pastIn reads.tableAt) hdrop
  obtain ⟨hafter, hevents, hshard⟩ := pollLoop_after (g.keyed_view reads) he hlo hrest (by simp [BatchBuilder.After,
    BatchBuilder.new])
  refine ⟨hevents, ?_⟩
  have hmem : e.shard ∈ (g.system.tableAt reads.tableAt).shards := mem_of_mem_drop (hdrop ▸ hshard)
  have hid := shardId_ne_zero hv hmem
  dsimp only [PollEnd.cursor]
  split
  · exact .inr (.inr ⟨reads.tableAt, e.shard, hmem, by dsimp only; omega, by omega⟩)
  · exact .inr (.inl ⟨hid, hafter⟩)

lemma poll_past (h : poll limits filter (g.view reads) c = .ok batch) :
    (∀ e ∈ batch.events, lo < e.commitTs) ∧ Past g lo batch.cursor := by
  unfold poll at h
  split at h
  · next hpoll =>
    cases h
    exact pollWithTable_past hpast hreach hpoll
  · split at h
    · cases h
    · simp only [bind, Except.bind] at h
      split at h <;> cases h

end

lemma start_eq {v : WatchView} {s : WatchStart} (hnone : s.startCursor = none) (h : start v s = .ok c) :
    c = positionBefore v.table (s.position (v.watermark.getD 0)) ∧ ensureAvailable v.table c = .ok () := by
  simp only [start, hnone, bind, Except.bind, pure, Except.pure] at h
  split at h
  · cases h
  unfold WatchStart.position
  split at h
  · next hzero =>
    rw [if_pos hzero]
    cases hw : v.watermark with
    | none =>
      rw [hw] at h
      cases h
    | some w =>
      rw [hw] at h
      dsimp only [Option.elim, Option.getD] at h ⊢
      split at h
      · cases h
      · next hok =>
        cases h
        exact ⟨rfl, hok⟩
  · next hzero =>
    rw [if_neg hzero]
    split at h
    · cases h
    · next hok =>
      cases h
      exact ⟨rfl, hok⟩

lemma start_past {s : WatchStart} (hnone : s.startCursor = none) (h : start (g.view reads) s = .ok c)
    (hreach : StartReaches (g.system.tableAt reads.tableAt) (s.position (reads.watermark.getD 0))) :
    Past g (s.position (reads.watermark.getD 0)) c := by
  obtain ⟨first, hv⟩ := g.system.valid_tableAt reads.tableAt
  obtain ⟨rfl, hok⟩ := start_eq hnone h
  refine (positionBefore_past hv hreach hok).past ?_ ?_
  · by_contra hboth
    obtain ⟨hnil, hpos⟩ := not_or.1 hboth
    rw [not_not] at hnil
    rcases hreach with h | h | h
    · exact hpos h
    · obtain ⟨z, hz, -⟩ := (hv.gc h).ends
      rw [hnil] at hz
      cases hz
    · obtain ⟨z, hz, -⟩ := reaches_iff.1 h
      rw [CommitLogShardTable.latest, hnil] at hz
      cases hz
  · rcases positionBefore_cases (g.system.tableAt reads.tableAt) (s.position (reads.watermark.getD 0)) with
      ⟨m, hm, -, hpos⟩ | ⟨hpos, -⟩
    · rw [hpos]
      exact .inr ⟨m, hm, rfl⟩
    · rw [hpos]
      exact .inl rfl

/-- **A watch delivers nothing before its start**, when the table reaches beyond the start and, at every poll, beyond
the position. -/
theorem watch_after_start {g : Groups} {reads : WatchReads} {s : WatchStart} {c : WatchCursor} {polls : List WatchPoll}
    (hnone : s.startCursor = none) (hstart : start (g.view reads) s = .ok c)
    (hreach : StartReaches (g.system.tableAt reads.tableAt) (s.position (reads.watermark.getD 0)))
    (hpolls : Along (watchStep g) (PollReaches g) [c] polls) :
    ∀ ev ∈ trace (watchStep g) [c] polls, ∀ batch, ev.out = some (.ok batch) →
      ∀ e ∈ batch.events, s.position (reads.watermark.getD 0) < e.commitTs := by
  set lo := s.position (reads.watermark.getD 0)
  have hstep : ∀ given p, PollReaches g given p → (∀ c ∈ given, Past g lo c) →
    ∀ c ∈ (watchStep g given p).1, Past g lo c := by
    intro given p hp hall
    unfold watchStep
    split
    · exact hall
    next c hc =>
    split
    · exact hall
    · next batch hbatch =>
      exact forall_mem_append_one hall (poll_past (hall c (mem_of_getElem? hc)) (hp c hc) hbatch).2
  intro ev hev batch hout
  obtain ⟨hbefore, hp, -⟩ := (along_inv (fun given => ∀ c ∈ given, Past g lo c) (PollReaches g)
    (by simpa using start_past hnone hstart hreach) hpolls hstep).2 ev hev
  obtain ⟨hev', -⟩ := step_of_mem_trace _ hev
  have hresult : (watchStep g ev.before ev.act).2 = some (.ok batch) := by rw [hev', hout]
  unfold watchStep at hresult
  split at hresult
  · cases hresult
  next c hc =>
  split at hresult
  · cases hresult
  · next batch' hbatch =>
    cases hresult
    exact (poll_past (hbefore c (mem_of_getElem? hc)) (hp c hc) hbatch).1

end

/-! ### A shard that has ended -/

def oneChange (shardId commitTs : ℕ) : CommitRecord := ⟨shardId, commitTs, [1], 1, 7, 0, [⟨[97], some [1], none⟩]⟩

/-- A shard that ends at `10`, is followed by another and sealed; the next one ends at `20`.  Each has a record. -/
def rotating : Groups where
  system := ⟨plainConfig, fun _ => 0,
    [shardEntry 1 (.open 1 0), shardEntry 2 (.setEnd 1 10 0), shardEntry 3 (.open 10 0),
    shardEntry 4 (.seal 1 5), shardEntry 5 (.setEnd 2 20 0)]⟩
  shard id := ⟨plainConfig, fun _ => 0,
    [⟨⟨1, 1, 1⟩, .normal (.commitLogAppend id 1 0 1024 [oneChange id (if id = 1 then 3 else 12)])⟩]⟩

/-- A call on a node with `n` entries of the system Region and all of the shards. -/
def readsAt (n watermark : ℕ) : WatchReads := ⟨n, some watermark, fun _ _ => some 1, none⟩

def pollAt (n watermark : ℕ) : WatchPoll := ⟨0, ⟨1000, 1024⟩, .all, readsAt n watermark⟩

/-- The timestamps that the polls from a position deliver. -/
def deliveredFrom (c : WatchCursor) (polls : List WatchPoll) : List (List ℕ) :=
  (trace (watchStep rotating) [c] polls).map fun ev =>
    match ev.out with
    | some (.ok batch) => batch.events.map WatchEvent.commitTs
    | _ => []

/-- A watch that starts at `3` while the first shard is open, and polls again when the next one is. -/
theorem watch_after_start_open :
    start (rotating.view (readsAt 1 4)) ⟨3, none⟩ = .ok ⟨1, 2⟩ ∧
    ∀ ev ∈ trace (watchStep rotating) [⟨1, 2⟩] [pollAt 1 4, { pollAt 4 15 with resume := 1 }], ∀ batch,
      ev.out = some (.ok batch) → ∀ e ∈ batch.events, (⟨3, none⟩ : WatchStart).position 4 < e.commitTs :=
  ⟨by decide +kernel, @watch_after_start rotating (readsAt 1 4) ⟨3, none⟩ ⟨1, 2⟩ _ rfl (by decide +kernel)
    (by decide +kernel) (by decide +kernel)⟩

/-- **A watch that starts where the table does not reach** delivers the history.  Here the table is still empty when a
watch starts at `5`, or its one shard has ended at `10` when one starts at `12`, or now with the watermark at `12`.
One that starts at `30` gets an event too, when two shards have ended before its first poll. -/
theorem watch_before_start :
    start (rotating.view (readsAt 0 0)) ⟨5, none⟩ = .ok .beginning ∧ deliveredFrom .beginning [pollAt 1 4] = [[3]] ∧
    start (rotating.view (readsAt 2 12)) ⟨12, none⟩ = .ok .beginning ∧
    start (rotating.view (readsAt 2 12)) ⟨0, none⟩ = .ok .beginning ∧
    deliveredFrom .beginning [pollAt 2 12] = [[3]] ∧
    start (rotating.view (readsAt 1 4)) ⟨30, none⟩ = .ok ⟨1, 29⟩ ∧ deliveredFrom ⟨1, 29⟩ [pollAt 5 15] = [[12]] := by
  decide +kernel

end Coord.Kvt.Watch
