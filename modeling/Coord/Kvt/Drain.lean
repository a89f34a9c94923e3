import Coord.Kvt.Txn
import Coord.Lib.Trace

/-!
# Draining a key range of its readers

A split or merge marks a range, waits until no session has read a key of it, and keeps the mark until its guard is
dropped.  Every operation on the sessions holds the one lock, and so a run is any sequence of them: reads, aborts,
expiries, commits, and the guards of any number of drains with the polls of their waits.
-/

namespace Coord.Kvt

open Coord.Lib Table
open List hiding getElem?_eq_some_iff mem_filter

/-! ### The keys of a read set -/

variable {key : Bytes}

lemma ReadRange.contains_iff {r : ReadRange} : r.contains key = true ↔ r.start ≤ key ∧ key < r.stop := by
  simp only [contains, isEmpty, Bool.and_eq_true, Bool.not_eq_true', decide_eq_false_iff_not, decide_eq_true_eq,
    and_iff_right_iff_imp]
  rintro ⟨hle, hlt⟩ hempty
  exact absurd (hlt.trans_le (hempty.trans hle)) (lt_irrefl key)

namespace ReadSet

def Reads (s : ReadSet) (key : Bytes) : Prop := s.points.has key = true ∨ ∃ r ∈ s.ranges, r.contains key = true

def Nonempty (s : ReadSet) : Prop := ∀ r ∈ s.ranges, r.start < r.stop

lemma not_reads_empty (key : Bytes) : ¬ empty.Reads key := by
  rintro (h | ⟨r, hr, -⟩)
  · cases h
  · cases hr

/-- What the merge of one more range does to the merged ones: no key comes and none goes. -/
lemma mem_mergeRange {merged : List ReadRange} {range : ReadRange} (hne : range.start < range.stop)
    (hall : ∀ r ∈ merged, r.start < r.stop ∧ r.start ≤ range.start) :
    (∀ key, (∃ r ∈ mergeRange merged range, r.contains key = true) ↔
      (∃ r ∈ merged, r.contains key = true) ∨ range.contains key = true) ∧
    ∀ r ∈ mergeRange merged range, r.start < r.stop ∧ r.start ≤ range.start := by
  cases merged with
  | nil => simpa [mergeRange] using hne
  | cons last merged =>
    obtain ⟨hlast, hstart⟩ := hall last mem_cons_self
    rw [mergeRange]
    split
    · next htouch =>
      -- the two meet or touch, so the joined range has the keys of both
      have hstop : ∀ key, (key < if last.stop < range.stop then range.stop else last.stop) ↔
          key < last.stop ∨ key < range.stop := by
        intro key
        split
        · next h => exact ⟨.inr, fun hk => hk.elim (·.trans h) id⟩
        · next h => exact ⟨.inl, fun hk => hk.elim id (·.trans_le (not_lt.1 h))⟩
      refine ⟨fun key => ?_, fun r hr => ?_⟩
      · simp only [exists_mem_cons_iff, ReadRange.contains_iff, hstop]
        constructor
        · rintro (⟨hle, hlt | hlt⟩ | h)
          · exact .inl (.inl ⟨hle, hlt⟩)
          · by_cases hkey : range.start ≤ key
            · exact .inr ⟨hkey, hlt⟩
            · exact .inl (.inl ⟨hle, (not_le.1 hkey).trans_le htouch⟩)
          · exact .inl (.inr h)
        · rintro ((⟨hle, hlt⟩ | h) | ⟨hle, hlt⟩)
          · exact .inl ⟨hle, .inl hlt⟩
          · exact .inr h
          · exact .inl ⟨hstart.trans hle, .inr hlt⟩
      · rcases mem_cons.1 hr with rfl | hr
        · exact ⟨(hstop _).2 (.inl hlast), hstart⟩
        · exact hall r (mem_cons_of_mem _ hr)
    · refine ⟨fun key => ?_, fun r hr => ?_⟩
      · simp only [exists_mem_cons_iff]
        exact or_comm
      · rcases mem_cons.1 hr with rfl | hr
        · exact ⟨hne, le_rfl⟩
        · exact hall r hr

lemma mem_foldl_mergeRange {merged sorted : List ReadRange} (hsorted : sorted.Pairwise fun a b => a.start ≤ b.start)
    (hne : ∀ r ∈ sorted, r.start < r.stop) (hall : ∀ m ∈ merged, m.start < m.stop ∧ ∀ r ∈ sorted, m.start ≤ r.start) :
    (∀ key, (∃ r ∈ sorted.foldl mergeRange merged, r.contains key = true) ↔
      (∃ r ∈ merged, r.contains key = true) ∨ ∃ r ∈ sorted, r.contains key = true) ∧
    ∀ r ∈ sorted.foldl mergeRange merged, r.start < r.stop := by
  induction sorted generalizing merged with
  | nil => exact ⟨by simp, fun r hr => (hall r hr).1⟩
  | cons range sorted ih =>
    obtain ⟨hfirst, hrest⟩ := pairwise_cons.1 hsorted
    obtain ⟨hkeys, hstart⟩ := @mem_mergeRange merged range (hne range mem_cons_self)
      fun m hm => ⟨(hall m hm).1, (hall m hm).2 range mem_cons_self⟩
    obtain ⟨hkeys', hne'⟩ := @ih (mergeRange merged range) hrest (fun r hr => hne r (mem_cons_of_mem _ hr))
      fun m hm => ⟨(hstart m hm).1, fun r hr => (hstart m hm).2.trans (hfirst r hr)⟩
    refine ⟨fun key => ?_, hne'⟩
    rw [foldl_cons, hkeys', hkeys, exists_mem_cons_iff]
    exact or_assoc

lemma reads_mergeRanges {s : ReadSet} (hne : s.Nonempty) :
    (∀ key, s.mergeRanges.Reads key ↔ s.Reads key) ∧ s.mergeRanges.Nonempty := by
  have hperm := perm_insertionSort (fun a b : ReadRange => a.lex ≤ b.lex) s.ranges
  have hsorted : (s.ranges.insertionSort fun a b => a.lex ≤ b.lex).Pairwise fun a b => a.start ≤ b.start := by
    refine (pairwise_insertionSort (fun a b : ReadRange => a.lex ≤ b.lex) s.ranges).imp fun {a b} hab => ?_
    rcases Prod.Lex.le_iff.1 hab with hlt | ⟨heq, -⟩
    · exact le_of_lt hlt
    · exact le_of_eq heq
  obtain ⟨hkeys, hne'⟩ := @mem_foldl_mergeRange [] _ hsorted (fun r hr => hne r (hperm.mem_iff.1 hr)) (by simp)
  have hranges : ∀ key, (∃ r ∈ s.mergeRanges.ranges, r.contains key = true) ↔
    ∃ r ∈ s.ranges, r.contains key = true := by
    intro key
    simp only [mergeRanges, mem_reverse, hkeys key, not_mem_nil, false_and, exists_false, false_or,
      hperm.mem_iff]
  refine ⟨fun key => ?_, fun r hr => hne' r (mem_reverse.1 hr)⟩
  -- a point is dropped only when a range has it
  have hpoints : s.mergeRanges.points.has key = true ↔
      s.points.has key = true ∧ ¬ ∃ r ∈ s.mergeRanges.ranges, r.contains key = true := by
    simp only [mergeRanges, Table.has, get_filter]
    cases s.points.get key with
    | none => simp
    | some v => simp [Option.filter]
  rw [Reads, Reads, hpoints, hranges]
  tauto

variable {s : ReadSet}

theorem reads_tryAddPoint {s' : ReadSet} {max : ℕ} (h : s.tryAddPoint key max = some s') :
    (∀ k, s'.Reads k ↔ s.Reads k ∨ k = key) ∧ s'.ranges = s.ranges := by
  unfold tryAddPoint at h
  split_ifs at h with hthere hmax
  · cases h
    have hread : s.Reads key := hthere.imp id any_eq_true.1
    exact ⟨fun k => ⟨.inl, fun h => h.elim id fun h => h ▸ hread⟩, rfl⟩
  · cases h
    refine ⟨fun k => ?_, rfl⟩
    simp only [Reads, Table.has, get_insert]
    by_cases hk : k = key
    · simp [hk]
    · simp [hk]

theorem reads_tryAddRange {s' : ReadSet} {start stop : Bytes} {max : ℕ} (hne : s.Nonempty)
    (h : s.tryAddRange start stop max = some s') :
    (∀ k, s'.Reads k ↔ s.Reads k ∨ start ≤ k ∧ k < stop) ∧ s'.Nonempty := by
  unfold tryAddRange at h
  dsimp only at h
  have hvoid : stop ≤ start → ∀ k, s.Reads k ↔ s.Reads k ∨ start ≤ k ∧ k < stop := fun hle k =>
    ⟨.inl, fun h => h.elim id fun h => absurd (h.2.trans_le (hle.trans h.1)) (lt_irrefl k)⟩
  split_ifs at h with hempty hthere hmax hcovers hmax
  · cases h
    exact ⟨hvoid (of_decide_eq_true hempty), hne⟩
  · cases h
    exact ⟨hvoid (of_decide_eq_true hempty), hne⟩
  · cases h
    refine ⟨fun k => ⟨.inl, fun h => h.elim id fun hk => ?_⟩, hne⟩
    obtain ⟨r, hr, hcov⟩ := any_eq_true.1 hcovers
    obtain ⟨-, hcov⟩ := Bool.and_eq_true_iff.1 hcov
    obtain ⟨hstart, hstop⟩ := of_decide_eq_true hcov
    exact .inr ⟨r, hr, ReadRange.contains_iff.2 ⟨hstart.trans hk.1, hk.2.trans_le hstop⟩⟩
  · cases h
    have hnew : start < stop := not_le.1 fun hle => hempty (decide_eq_true hle)
    obtain ⟨hkeys, hne'⟩ := @reads_mergeRanges { s with ranges := s.ranges ++ [⟨start, stop⟩] }
      (forall_mem_append_one hne hnew)
    refine ⟨fun k => ?_, hne'⟩
    rw [hkeys]
    simp only [Reads, mem_append, mem_singleton, or_and_right, exists_or, exists_eq_left,
      ReadRange.contains_iff]
    exact or_assoc.symm

/-! ### The test of the drain -/

theorem intersectsDrain_iff (hne : s.Nonempty) {drain : ReadRange} :
    s.intersectsDrain drain = true ↔ ∃ key, s.Reads key ∧ drain.drains key = true := by
  unfold intersectsDrain
  split
  · next hempty =>
    -- a bounded drain that is empty holds no key
    refine ⟨fun h => (nomatch h), ?_⟩
    rintro ⟨key, -, hkey⟩
    obtain ⟨hle, hend⟩ := of_decide_eq_true hkey
    exact absurd ((hend.resolve_left hempty.1).trans_le (hempty.2.trans hle)) (lt_irrefl key)
  next hempty =>
  rw [Bool.or_eq_true, any_eq_true, any_eq_true]
  constructor
  · rintro (⟨key, hkey, hdrain⟩ | ⟨r, hr, hmeet⟩)
    · obtain ⟨row, hrow, rfl⟩ := mem_map.1 hkey
      exact ⟨row.1, .inl (has_iff.2 ⟨row.2, mem_rows.1 hrow⟩), hdrain⟩
    · -- the later of the two starts is in both ranges
      obtain ⟨hstop, hstart⟩ := of_decide_eq_true hmeet
      refine ⟨max r.start drain.start, .inr ⟨r, hr, ReadRange.contains_iff.2 ⟨le_max_left _ _, ?_⟩⟩, ?_⟩
      · exact max_lt (hne r hr) hstop
      · refine decide_eq_true ⟨le_max_right _ _, hstart.imp_right fun hlt => max_lt hlt ?_⟩
        exact not_le.1 fun hle => hempty ⟨fun hnil => absurd (hnil ▸ hlt) (not_lt_nil _), hle⟩
  · rintro ⟨key, hread | ⟨r, hr, hread⟩, hdrain⟩
    · obtain ⟨v, hv⟩ := has_iff.1 hread
      exact .inl ⟨key, mem_map.2 ⟨(key, v), mem_rows.2 hv, rfl⟩, hdrain⟩
    · obtain ⟨hstart, hstop⟩ := ReadRange.contains_iff.1 hread
      obtain ⟨hle, hend⟩ := of_decide_eq_true hdrain
      exact .inr ⟨r, hr, decide_eq_true ⟨hle.trans_lt hstop, hend.imp id hstart.trans_lt⟩⟩

end ReadSet

def ReadIntent.Reads : ReadIntent → Bytes → Prop
  | .point key, k => k = key
  | .range start stop, k => start ≤ k ∧ k < stop

variable {intent : ReadIntent}

lemma ReadIntent.intersectsDrain_of_reads {drain : ReadRange}
    (hread : intent.Reads key) (hdrain : drain.drains key = true) : intent.intersectsDrain drain = true := by
  cases intent with
  | point k =>
    cases hread
    exact hdrain
  | range start stop =>
    obtain ⟨hstart, hstop⟩ := hread
    obtain ⟨hle, hend⟩ := of_decide_eq_true hdrain
    simp only [intersectsDrain, Bool.and_eq_true, Bool.not_eq_true', ReadRange.isEmpty, ReadRange.meetsDrain,
      decide_eq_false_iff_not, decide_eq_true_eq]
    exact ⟨not_le.2 (hstart.trans_lt hstop), hle.trans_lt hstop, hend.imp id hstart.trans_lt⟩

/-! ### Runs of the sessions -/

/-- The guard of a drain, with whether its wait has found the range drained. -/
structure DrainGuard where
  range : ReadRange
  drained : Bool
  deriving DecidableEq

structure Sessions where
  table : TxnTable
  guards : List DrainGuard

inductive SessionAction where
  | begin (id : Bytes) (startTs ttl now : ℕ)
  | recordRead (id : Bytes) (intent : ReadIntent) (maxReadSet now : ℕ)
  | abort (id : Bytes)
  | beginCommit (id requestId : Bytes) (now : ℕ)
  | finishCommit (id requestId : Bytes) (commitTs : ℕ)
  | cancelCommit (id requestId : Bytes)
  | sweep (now : ℕ)
  | drain (range : ReadRange)
  | poll (guard now : ℕ)
  | drop (guard : ℕ)

/-- What an action answers: the result of a read or a commit, or the sessions that a poll still counts. -/
inductive SessionAnswer where
  | done
  | read (result : Except SessionError ℕ)
  | commit (result : Except SessionError CommitInput)
  | active (sessions : ℕ)

namespace Sessions

def empty : Sessions := ⟨TxnTable.empty, []⟩

def activeIn (t : TxnTable) (range : ReadRange) : ℕ :=
  (t.sessions.rows.filter fun r => r.2.readSet.intersectsDrain range).length

/-- One locked section.  A poll is one round of the wait of a guard: it drops the expired sessions and counts those that
meet the range. -/
def step (s : Sessions) : SessionAction → Sessions × SessionAnswer
  | .begin id startTs ttl now => ({ s with table := s.table.begin id startTs ttl now }, .done)
  | .recordRead id intent maxReadSet now =>
    let r := s.table.recordRead id intent maxReadSet now
    ({ s with table := r.1 }, .read r.2)
  | .abort id => ({ s with table := s.table.abort id }, .done)
  | .beginCommit id requestId now =>
    let r := s.table.beginCommit id requestId now
    ({ s with table := r.1 }, .commit r.2)
  | .finishCommit id requestId commitTs => ({ s with table := s.table.finishCommit id requestId commitTs }, .done)
  | .cancelCommit id requestId => ({ s with table := s.table.cancelCommit id requestId }, .done)
  | .sweep now => ({ s with table := s.table.sweep now }, .done)
  | .drain range => (⟨s.table.drain range, s.guards ++ [⟨range, false⟩]⟩, .done)
  | .poll guard now =>
    match s.guards[guard]? with
    | none => (s, .done)
    | some g =>
      let table := s.table.sweep now
      let active := activeIn table g.range
      (⟨table, if active = 0 then s.guards.set guard { g with drained := true } else s.guards⟩, .active active)
  | .drop guard =>
    match s.guards[guard]? with
    | none => (s, .done)
    | some g => (⟨s.table.releaseDrain g.range, s.guards.eraseIdx guard⟩, .done)

end Sessions

/-! ### What the operations keep -/

namespace TxnTable

/-- Every read set of `t'` was one of `t` or is empty, and the marks are the same. -/
structure Keeps (t t' : TxnTable) : Prop where
  drains : t'.drains = t.drains
  reads : ∀ r ∈ t'.sessions.rows, r.2.readSet = ReadSet.empty ∨ ∃ r' ∈ t.sessions.rows, r'.2.readSet = r.2.readSet

lemma Keeps.refl (t : TxnTable) : Keeps t t := ⟨rfl, fun r hr => .inr ⟨r, hr, rfl⟩⟩

lemma keeps_filter (t : TxnTable) (p : Bytes × TxnSession → Bool) :
    Keeps t { t with sessions := t.sessions.filter p } :=
  ⟨rfl, fun r hr => .inr ⟨r, (mem_filter.1 hr).1, rfl⟩⟩

variable {t : TxnTable} {id : Bytes}

lemma keeps_insert {session session' : TxnSession} (h : t.sessions.get id = some session)
    (hread : session'.readSet = ReadSet.empty ∨ session'.readSet = session.readSet) :
    Keeps t { t with sessions := t.sessions.insert id session' } := by
  refine ⟨rfl, fun r hr => ?_⟩
  rcases mem_insert.1 hr with rfl | ⟨hr, -⟩
  · exact hread.imp_right fun heq => ⟨(id, session), mem_rows.2 h, heq.symm⟩
  · exact .inr ⟨r, hr, rfl⟩

lemma keeps_dropExpired (t : TxnTable) (id : Bytes) (now : ℕ) : Keeps t (t.dropExpired id now) := by
  unfold dropExpired
  split
  · split
    · exact keeps_filter t _
    · exact Keeps.refl t
  · exact Keeps.refl t

lemma keeps_begin (t : TxnTable) (id : Bytes) (startTs ttl now : ℕ) : Keeps t (t.begin id startTs ttl now) := by
  refine ⟨rfl, fun r hr => ?_⟩
  rcases mem_insert.1 hr with rfl | ⟨hr, -⟩
  · exact .inl rfl
  · exact (keeps_filter t _).reads r hr

lemma keeps_abort (t : TxnTable) (id : Bytes) : Keeps t (t.abort id) := by
  unfold abort
  split
  · split
    · exact keeps_filter t _
    · exact Keeps.refl t
  · exact Keeps.refl t

lemma Keeps.trans {t' t'' : TxnTable} (h : Keeps t t') (h' : Keeps t' t'') : Keeps t t'' := by
  refine ⟨h'.drains.trans h.drains, fun r hr => ?_⟩
  rcases h'.reads r hr with hempty | ⟨r', hr', heq⟩
  · exact .inl hempty
  · rw [← heq]
    exact h.reads r' hr'

lemma keeps_beginCommit (t : TxnTable) (id requestId : Bytes) (now : ℕ) :
    Keeps t (t.beginCommit id requestId now).1 := by
  refine (keeps_dropExpired t id now).trans ?_
  unfold beginCommit
  dsimp only
  generalize t.dropExpired id now = t
  cases hget : t.sessions.get id with
  | none => exact Keeps.refl t
  | some session =>
    dsimp only
    split
    · split <;> exact Keeps.refl t
    · split <;> exact Keeps.refl t
    · exact keeps_insert hget (.inr rfl)

lemma keeps_finishCommit (t : TxnTable) (id requestId : Bytes) (commitTs : ℕ) :
    Keeps t (t.finishCommit id requestId commitTs) := by
  unfold finishCommit
  split
  · next session hget =>
    split
    · exact keeps_insert hget (.inl rfl)
    · exact Keeps.refl t
  · exact Keeps.refl t

lemma keeps_cancelCommit (t : TxnTable) (id requestId : Bytes) : Keeps t (t.cancelCommit id requestId) := by
  unfold cancelCommit
  split
  · next session hget =>
    split
    · exact keeps_insert hget (.inr rfl)
    · exact Keeps.refl t
  · exact Keeps.refl t

/-- A read that is recorded: no mark sees it, and one session has its keys in addition. -/
structure Records (intent : ReadIntent) (t t' : TxnTable) : Prop where
  drains : t'.drains = t.drains
  outside : ∀ drain ∈ t.drains, intent.intersectsDrain drain = false
  reads : ∀ r ∈ t'.sessions.rows, r ∈ t.sessions.rows ∨ ∃ r' ∈ t.sessions.rows, r'.2.readSet.Nonempty →
    r.2.readSet.Nonempty ∧ ∀ key, r.2.readSet.Reads key ↔ r'.2.readSet.Reads key ∨ intent.Reads key

/-- The table after a read that is recorded; `u` is the table without the session if it has expired. -/
lemma records_insert {u : TxnTable} {session : TxnSession} {readSet : ReadSet}
    (hdrop : u.drains = t.drains) (hrows : ∀ r ∈ u.sessions.rows, r ∈ t.sessions.rows)
    (hget : u.sessions.get id = some session) (hout : ¬ u.drains.any (fun drain => intent.intersectsDrain drain) = true)
    (hadd : session.readSet.Nonempty →
      readSet.Nonempty ∧ ∀ key, readSet.Reads key ↔ session.readSet.Reads key ∨ intent.Reads key) :
    Records intent t { u with sessions := u.sessions.insert id { session with readSet := readSet } } := by
  refine ⟨hdrop, fun drain hd => ?_, fun r hr => ?_⟩
  · rw [Bool.not_eq_true, any_eq_false] at hout
    exact Bool.eq_false_iff.2 (hout drain (hdrop ▸ hd))
  · rcases mem_insert.1 hr with rfl | ⟨hr, -⟩
    · exact .inr ⟨(id, session), hrows _ (mem_rows.2 hget), hadd⟩
    · exact .inl (hrows r hr)

lemma mem_dropExpired {now : ℕ} {r : Bytes × TxnSession}
    (hr : r ∈ (t.dropExpired id now).sessions.rows) : r ∈ t.sessions.rows := by
  unfold dropExpired at hr
  split at hr
  · split at hr
    · exact (mem_filter.1 hr).1
    · exact hr
  · exact hr

lemma recordRead_cases (t : TxnTable) (id : Bytes) (intent : ReadIntent) (maxReadSet now : ℕ) :
    Keeps t (t.recordRead id intent maxReadSet now).1 ∧ (∃ e, (t.recordRead id intent maxReadSet now).2 = .error e) ∨
      Records intent t (t.recordRead id intent maxReadSet now).1 := by
  have hdrop := keeps_dropExpired t id now
  have hrows : ∀ r ∈ (t.dropExpired id now).sessions.rows, r ∈ t.sessions.rows := fun r hr => mem_dropExpired hr
  unfold recordRead
  dsimp only
  generalize t.dropExpired id now = u at hdrop hrows
  cases hget : u.sessions.get id with
  | none => exact .inl ⟨hdrop, _, rfl⟩
  | some session =>
    dsimp only
    split
    · exact .inl ⟨hdrop, _, rfl⟩
    split
    · exact .inl ⟨hdrop, _, rfl⟩
    next hout =>
    cases intent with
    | point key =>
      dsimp only
      cases hadd : session.readSet.tryAddPoint key maxReadSet with
      | none => exact .inl ⟨hdrop, _, rfl⟩
      | some readSet =>
        obtain ⟨hkeys, hranges⟩ := ReadSet.reads_tryAddPoint hadd
        exact .inr (records_insert hdrop.drains hrows hget hout fun hne =>
          ⟨fun r hr => hne r (hranges ▸ hr), hkeys⟩)
    | range start stop =>
      dsimp only
      cases hadd : session.readSet.tryAddRange start stop maxReadSet with
      | none => exact .inl ⟨hdrop, _, rfl⟩
      | some readSet =>
        refine .inr (records_insert hdrop.drains hrows hget hout fun hne => ?_)
        obtain ⟨hkeys, hne'⟩ := ReadSet.reads_tryAddRange hne hadd
        exact ⟨hne', hkeys⟩

end TxnTable

namespace Sessions

/-- The marks are those of the guards, and no session has read a range that a living guard found drained. -/
structure Inv (s : Sessions) : Prop where
  marks : s.table.drains.Perm (s.guards.map DrainGuard.range)
  nonempty : ∀ r ∈ s.table.sessions.rows, r.2.readSet.Nonempty
  drained : ∀ g ∈ s.guards, g.drained = true → ∀ r ∈ s.table.sessions.rows, ∀ key, r.2.readSet.Reads key →
    g.range.drains key = false

lemma inv_empty : empty.Inv := ⟨List.Perm.nil, fun _ hr => (nomatch hr), fun _ hg => (nomatch hg)⟩

variable {s : Sessions} {t : TxnTable}

lemma Inv.keeps (h : s.Inv) (hk : TxnTable.Keeps s.table t) : Inv { s with table := t } := by
  refine ⟨hk.drains ▸ h.marks, fun r hr => ?_, fun g hg hdrained r hr key hread => ?_⟩
  · rcases hk.reads r hr with hempty | ⟨r', hr', heq⟩
    · rw [hempty]
      exact fun r hr => nomatch hr
    · exact heq ▸ h.nonempty r' hr'
  · rcases hk.reads r hr with hempty | ⟨r', hr', heq⟩
    · exact absurd (hempty ▸ hread) (ReadSet.not_reads_empty key)
    · exact h.drained g hg hdrained r' hr' key (heq ▸ hread)

lemma Inv.not_drains (h : s.Inv) (hr : TxnTable.Records intent s.table t) {g : DrainGuard} (hg : g ∈ s.guards)
    (hread : intent.Reads key) : g.range.drains key = false := by
  have hmark : g.range ∈ s.table.drains := h.marks.mem_iff.2 (mem_map_of_mem hg)
  refine Bool.eq_false_iff.2 fun hdrain => ?_
  have hseen := ReadIntent.intersectsDrain_of_reads hread hdrain
  rw [hr.outside g.range hmark] at hseen
  cases hseen

lemma Inv.records (h : s.Inv) (hrec : TxnTable.Records intent s.table t) : Inv { s with table := t } := by
  refine ⟨hrec.drains ▸ h.marks, fun r hr => ?_, fun g hg hdrained r hr key hread => ?_⟩
  · rcases hrec.reads r hr with hr | ⟨r', hr', hadd⟩
    · exact h.nonempty r hr
    · exact (hadd (h.nonempty r' hr')).1
  · rcases hrec.reads r hr with hr | ⟨r', hr', hadd⟩
    · exact h.drained g hg hdrained r hr key hread
    · rcases ((hadd (h.nonempty r' hr')).2 key).1 hread with hold | hnew
      · exact h.drained g hg hdrained r' hr' key hold
      · exact h.not_drains hrec hg hnew

lemma Inv.not_drains_of_activeIn (h : s.Inv) {range : ReadRange} (hzero : activeIn s.table range = 0)
    {r : Bytes × TxnSession} (hr : r ∈ s.table.sessions.rows) (hread : r.2.readSet.Reads key) :
    range.drains key = false := by
  refine Bool.eq_false_iff.2 fun hdrain => ?_
  have hnil := filter_eq_nil_iff.1 (length_eq_zero_iff.1 hzero) r hr
  exact hnil ((ReadSet.intersectsDrain_iff (h.nonempty r hr)).2 ⟨key, hread, hdrain⟩)

theorem Inv.step (h : s.Inv) (a : SessionAction) : (s.step a).1.Inv := by
  cases a with
  | begin id startTs ttl now => exact h.keeps (TxnTable.keeps_begin _ id startTs ttl now)
  | recordRead id intent maxReadSet now =>
    rcases TxnTable.recordRead_cases s.table id intent maxReadSet now with ⟨hkeeps, -⟩ | hrec
    · exact h.keeps hkeeps
    · exact h.records hrec
  | abort id => exact h.keeps (TxnTable.keeps_abort _ id)
  | beginCommit id requestId now => exact h.keeps (TxnTable.keeps_beginCommit _ id requestId now)
  | finishCommit id requestId commitTs => exact h.keeps (TxnTable.keeps_finishCommit _ id requestId commitTs)
  | cancelCommit id requestId => exact h.keeps (TxnTable.keeps_cancelCommit _ id requestId)
  | sweep now => exact h.keeps (TxnTable.keeps_filter _ _)
  | drain range =>
    refine ⟨?_, h.nonempty, fun g hg hdrained => ?_⟩
    · have hmap : (s.guards ++ [(⟨range, false⟩ : DrainGuard)]).map DrainGuard.range =
          s.guards.map DrainGuard.range ++ [range] := map_append
      exact hmap ▸ h.marks.append_right [range]
    · rcases mem_append_one.1 hg with hg | rfl
      · exact h.drained g hg hdrained
      · cases hdrained
  | poll i now =>
    simp only [Sessions.step]
    cases hi : s.guards[i]? with
    | none => exact h
    | some g =>
      dsimp only
      have hswept : Inv { s with table := s.table.sweep now } := h.keeps (TxnTable.keeps_filter _ _)
      split
      · next hzero =>
        have hmap : (s.guards.set i { g with drained := true }).map DrainGuard.range =
          s.guards.map DrainGuard.range := by
          obtain ⟨hlt, rfl⟩ := List.getElem?_eq_some_iff.1 hi
          refine ext_getElem (by simp) fun j hj hj' => ?_
          rw [getElem_map, getElem_map, getElem_set]
          split
          · next hij => subst hij; rfl
          · rfl
        refine ⟨hmap.symm ▸ hswept.marks, hswept.nonempty, fun g' hg' hdrained r hr key hread => ?_⟩
        rcases mem_or_eq_of_mem_set hg' with hg' | rfl
        · exact hswept.drained g' hg' hdrained r hr key hread
        · exact hswept.not_drains_of_activeIn hzero hr hread
      · exact hswept
  | drop i =>
    simp only [Sessions.step]
    cases hi : s.guards[i]? with
    | none => exact h
    | some g =>
      refine ⟨?_, h.nonempty, fun g' hg' => h.drained g' (mem_of_mem_eraseIdx hg')⟩
      obtain ⟨hlt, rfl⟩ := List.getElem?_eq_some_iff.1 hi
      have hsplit : (s.guards.map DrainGuard.range).Perm (s.guards[i].range :: (s.guards.eraseIdx i).map
        DrainGuard.range) :=
        ((getElem_cons_eraseIdx_perm hlt).map DrainGuard.range).symm
      have herase := (h.marks.trans hsplit).erase s.guards[i].range
      rwa [erase_cons_head] at herase

end Sessions

/-- **While the guard of a finished drain lives, nobody reads its range.**  In every interleaving of the locked
sections: no session has read a key of a range that a living guard found drained, by the keys and by the test of the
drain; and a read is recorded only if it reads no key of the range of a living guard. -/
theorem drained_run (as : List SessionAction) : (∀ g ∈ (exec Sessions.step Sessions.empty as).guards, g.drained = true →
      ∀ id session, (exec Sessions.step Sessions.empty as).table.sessions.get id = some session →
        (∀ key, session.readSet.Reads key → g.range.drains key = false) ∧
          session.readSet.intersectsDrain g.range = false) ∧
    ∀ e ∈ trace Sessions.step Sessions.empty as, ∀ id intent maxReadSet now startTs,
      e.act = .recordRead id intent maxReadSet now → e.out = .read (.ok startTs) →
        ∀ g ∈ e.before.guards, ∀ key, intent.Reads key → g.range.drains key = false := by
  have hstep : ∀ s, ∀ a ∈ as, s.Inv → (Sessions.step s a).1.Inv := fun s a _ h => h.step a
  have hinv := exec_inv Sessions.Inv Sessions.inv_empty hstep
  refine ⟨fun g hg hdrained id session hget => ?_, fun e he id intent maxReadSet now startTs hact hout => ?_⟩
  · have hmem := mem_rows.2 hget
    have hread := hinv.drained g hg hdrained (id, session) hmem
    refine ⟨hread, Bool.eq_false_iff.2 fun hmeets => ?_⟩
    obtain ⟨key, hkey, hdrain⟩ := (ReadSet.intersectsDrain_iff (hinv.nonempty (id, session) hmem)).1 hmeets
    rw [hread key hkey] at hdrain
    cases hdrain
  · intro g hg key hkey
    have hbefore := (trace_inv Sessions.Inv Sessions.inv_empty hstep e he).1
    obtain ⟨hrun, -⟩ := step_of_mem_trace Sessions.step he
    rw [hact] at hrun
    rcases TxnTable.recordRead_cases e.before.table id intent maxReadSet now with ⟨-, err, herr⟩ | hrec
    · have hread : SessionAnswer.read (.error err) = e.out :=
        (congrArg SessionAnswer.read herr).symm.trans (congrArg Prod.snd hrun)
      rw [hout] at hread
      cases hread
    · exact hbefore.not_drains hrec hg hkey

end Coord.Kvt
