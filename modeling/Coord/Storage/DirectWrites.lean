import Coord.Storage.KvHistory
import Coord.Storage.Lease

/-!
# Direct writes at a commit timestamp

A direct write of a v2 store has its commit timestamp from the caller, and may be delivered again. It is recognised by
the entry of the changelog at its timestamp: by the key and the value, by the keys that were deleted, or only as the
cleanup of some lease.

the
  entry there;
were
  bound.
-/

namespace Coord.Storage

open Coord.Lib Store Option

inductive DirectWrite where
  | put (key value : Bytes) (leaseId : Option ℤ)
  | delete (key : Bytes)
  | deleteRange (start stop : Bytes)
  | cleanup (leaseId : ℤ)
  deriving DecidableEq

/-- The store after the write, and whether it was taken for a replay. -/
def DirectWrite.apply (mode : RevisionMode) (s : Store) (commitTs : ℕ) (applied : AppliedLogId) :
    DirectWrite → Except Error (Store × Bool)
  | .put key value leaseId => (s.putAtCommitTs mode key value leaseId commitTs applied).map fun r => (r.1, r.2.replayed)
  | .delete key => (s.deleteAtCommitTs mode key commitTs applied).map fun r => (r.1, r.2.replayed)
  | .deleteRange start stop =>
    (s.deleteRangeAtCommitTs mode start stop commitTs applied).map fun r => (r.1, r.2.replayed)
  | .cleanup leaseId => (s.deleteKeysByLeaseAtCommitTs mode leaseId commitTs applied).map fun r => (r.1, r.2.1.replayed)

/-- The entry is one the write is taken for: of whatever command and lease a put of the key and the value, or a delete
of the key; the deletes in the range, if they are all its tombstones of the timestamp and nothing in it is live; the
cleanup of whatever lease. -/
def DirectWrite.Recorded (s : Store) (event : ChangeEvent) (commitTs : ℕ) : DirectWrite → Prop
  | .put key value _ => event.changes = [⟨key, some value⟩]
  | .delete key => event.changes = [⟨key, none⟩]
  | .deleteRange start stop => (∀ c ∈ event.changes, c.value = none ∧ inRange start stop c.key = true) ∧
      s.rangeHasLiveKeys start stop = false ∧ s.countDeletedAtRevision start stop commitTs = event.changes.length
  | .cleanup _ => event.eventType = .lease

section

variable {mode : RevisionMode} {s s' : Store} {w : DirectWrite} {ts : ℕ} {applied : AppliedLogId} {b : Bool}
  {event : ChangeEvent}

open Classical in
lemma DirectWrite.apply_of_event (hts : 0 < ts) (h : s.changelog.get ts = some event) :
    w.apply mode s ts applied = if w.Recorded s event ts then .ok (s, true)
      else .error (.commitRejected ts (s.currentRevision mode)) := by
  have hne : ts ≠ 0 := by omega
  cases w with
  | put key value leaseId =>
    simp only [apply, putAtCommitTs, hne, if_false, putAtKey, replayGuard, h, map_some, Recorded]
    by_cases hsame : event.changes = [⟨key, some value⟩] <;> simp [hsame, Except.map]
  | delete key =>
    simp only [apply, deleteAtCommitTs, hne, if_false, deleteAtKey, replayGuard, h, map_some, Recorded]
    by_cases hsame : event.changes = [⟨key, none⟩] <;> simp [hsame, Except.map]
  | deleteRange start stop =>
    have hiff : ((event.changes.all fun c => c.value.isNone && inRange start stop c.key) &&
        !s.rangeHasLiveKeys start stop && decide (s.countDeletedAtRevision start stop
          ts = event.changes.length)) = true ↔
        DirectWrite.Recorded s event ts (.deleteRange start stop) := by
      simp [Recorded, and_assoc]
    simp only [apply, deleteRangeAtCommitTs, hne, if_false, deleteRangeAtKey, replayGuard, h,
      map_some, ← hiff]
    split_ifs <;> rfl
  | cleanup leaseId =>
    simp only [apply, deleteKeysByLeaseAtCommitTs, hne, if_false, h, Recorded]
    by_cases hlease : event.eventType = .lease <;> simp [hlease, Except.map]

lemma DirectWrite.entry_of_apply (h : w.apply mode s ts applied = .ok (s', b)) :
    0 < ts ∧ ((s'.changelog.get ts).isSome = true ∨
      ∃ l, w = .cleanup l ∧ s.keysByLease l = [] ∧ s' = { s with lastApplied := some applied }) := by
  have hts : 0 < ts := by
    by_contra hzero
    obtain rfl : ts = 0 := by omega
    cases w <;> simp [apply, putAtCommitTs, deleteAtCommitTs, deleteRangeAtCommitTs,
      deleteKeysByLeaseAtCommitTs, Except.map] at h
  refine ⟨hts, ?_⟩
  cases hget : s.changelog.get ts with
  | some event =>
    rw [apply_of_event hts hget] at h
    split at h
    · cases h
      exact .inl (by simp [hget])
    · cases h
  | none =>
    have hne : ts ≠ 0 := by omega
    cases w with
    | put key value leaseId =>
      simp only [apply, putAtCommitTs, hne, if_false, putAtKey, replayGuard, hget, map_none] at h
      split at h
      · cases h
      · cases h
        exact .inl (by simp [writeChangelog])
    | delete key =>
      simp only [apply, deleteAtCommitTs, hne, if_false, deleteAtKey, replayGuard, hget, map_none] at h
      split at h
      · cases h
      · cases h
        exact .inl (by simp [writeChangelog])
    | deleteRange start stop =>
      simp only [apply, deleteRangeAtCommitTs, hne, if_false, deleteRangeAtKey, replayGuard, hget,
        map_none] at h
      split at h
      · cases h
      · cases h
        exact .inl (by simp [writeChangelog])
    | cleanup leaseId =>
      simp only [apply] at h
      cases hok : s.deleteKeysByLeaseAtCommitTs mode leaseId ts applied with
      | error e => simp [hok, Except.map] at h
      | ok r =>
      obtain ⟨s₁, o⟩ := r
      simp only [hok, Except.map, Except.ok.injEq, Prod.mk.injEq] at h
      obtain ⟨rfl, -⟩ := h
      rcases deleteKeysByLeaseAtCommitTs_cases hok with ⟨event, hsome, -⟩ | ⟨-, ⟨hnil, heq⟩ | ⟨s₂, -, heq⟩⟩
      · simp [hget] at hsome
      · exact .inr ⟨leaseId, rfl, hnil, heq⟩
      · exact .inl (by simp [heq, writeChangelog])

lemma DirectWrite.apply_keeps (hget : s.changelog.get ts = some event) (h : w.apply mode s ts applied = .ok (s', b)) :
    s' = s := by
  rw [apply_of_event (entry_of_apply h).1 hget] at h
  split at h
  · cases h
    rfl
  · cases h

/-- **A direct write again.** The second time at one commit timestamp it changes nothing but the position in the log;
and whatever the entry at a timestamp, a direct write there leaves the store as it is, and is rejected just when the
timestamp is zero or the entry is none that the write is taken for. -/
theorem direct_write_again (mode : RevisionMode) (s : Store) (w : DirectWrite) (ts : ℕ) (applied : AppliedLogId) :
    (∀ s' b, w.apply mode s ts applied = .ok (s', b) → ∀ applied' s'' b', w.apply mode s' ts applied' = .ok (s'', b') →
      s'' = { s' with lastApplied := s''.lastApplied }) ∧
    ∀ event, s.changelog.get ts = some event → (∀ s' b, w.apply mode s ts applied = .ok (s', b) → s' = s) ∧
        ((∃ e, w.apply mode s ts applied = .error e) ↔ ts = 0 ∨ ¬ w.Recorded s event ts) := by
  refine ⟨fun s' b h applied' s'' b' h' => ?_, fun event hget => ⟨fun s' b h => DirectWrite.apply_keeps hget h, ?_⟩⟩
  · rcases (DirectWrite.entry_of_apply h).2 with hentry | ⟨l, rfl, hnil, rfl⟩
    · obtain ⟨event, hget⟩ := isSome_iff_exists.1 hentry
      rw [DirectWrite.apply_keeps hget h']
    -- a cleanup without keys finds none again, unless an entry turns it away
    cases hget : s.changelog.get ts with
    | some event => rw [DirectWrite.apply_keeps (s := { s with lastApplied := some applied }) hget h']
    | none =>
      have hnil' : { s with lastApplied := some applied }.keysByLease l = [] := hnil
      have hne : ts ≠ 0 := (DirectWrite.entry_of_apply h).1.ne'
      simp only [DirectWrite.apply, deleteKeysByLeaseAtCommitTs, hne, if_false, hget, deleteKeysByLease,
        hnil', if_true] at h'
      split at h' <;> cases h'
      rfl
  · rcases Nat.eq_zero_or_pos ts with rfl | hts
    · refine ⟨fun _ => .inl rfl, fun _ => ?_⟩
      cases hrun : w.apply mode s 0 applied with
      | error e => exact ⟨e, rfl⟩
      | ok r =>
        obtain ⟨s', b⟩ := r
        exact absurd (DirectWrite.entry_of_apply hrun).1 (lt_irrefl 0)
    · rw [DirectWrite.apply_of_event hts hget]
      split <;> simp [hts.ne', *]

end

def directStep (mode : RevisionMode) (s : Store) (c : DirectWrite × ℕ × AppliedLogId) : Store × Option Error :=
  settle s (c.1.apply mode s c.2.1 c.2.2)

/-- A put bound to another lease, and the cleanup of another lease, are reported as applied and do nothing. -/
theorem other_write_reported_applied :
    let s := exec (directStep .commitTs) Store.empty
      [(.put [1] [10] (some 5), 20, ⟨1, 1, 1⟩), (.put [2] [10] (some 6), 30, ⟨1, 1, 2⟩), (.cleanup 5, 40, ⟨1, 1, 3⟩)]
    DirectWrite.apply .commitTs s 20 ⟨1, 1, 4⟩ (.put [1] [10] (some 7)) = .ok (s, true) ∧
    DirectWrite.apply .commitTs s 40 ⟨1, 1, 4⟩ (.cleanup 6) = .ok (s, true) ∧ s.keysByLease 6 = [[2]] :=
  ⟨rfl, rfl, by decide +kernel⟩

/-! ### The cleanup of a lease -/

lemma mem_keysByLease {s : Store} {k : Bytes} {l : ℤ} :
    k ∈ s.keysByLease l ↔ ∃ m, (s.row k).2 = some m ∧ m.leaseId = l ∧ m.deleted = false := by
  simp [keysByLease, Store.row, Table.mem_rows]

/-- **A cleanup reported as applied** leaves no live key bound to the lease just when its timestamp was not in use, or
no key was bound. -/
theorem cleanup_complete_iff {mode : RevisionMode} {s s' : Store} {l : ℤ} {ts : ℕ} {applied : AppliedLogId}
    {o : ApplyOutcome × List Bytes} (h : s.deleteKeysByLeaseAtCommitTs mode l ts applied = .ok (s', o)) :
    s'.keysByLease l = [] ↔ s.changelog.get ts = none ∨ s.keysByLease l = [] := by
  rcases deleteKeysByLeaseAtCommitTs_cases h with ⟨event, hget, rfl⟩ | ⟨hget, ⟨hnil, rfl⟩ | ⟨s₁, hacc, rfl⟩⟩
  · simp [hget]
  · exact ⟨fun _ => .inr hnil, fun _ => hnil⟩
  refine ⟨fun _ => .inl hget, fun _ => List.eq_nil_iff_forall_not_mem.2 fun k hk => ?_⟩
  obtain ⟨m, hm, hl, hlive⟩ := mem_keysByLease.1 hk
  obtain ⟨-, rfl⟩ := @acceptRevision_ok mode .commitTs _ _ _ (fun h => nomatch h) hacc
  change ((s.deleteKeys (s.keysByLease l) ts).row k).2 = some m at hm
  rw [row_deleteKeys] at hm
  split at hm
  · -- a key that was bound is a tombstone now
    obtain ⟨m', -, rfl⟩ := map_eq_some_iff.1 hm
    split at hlive
    · simp_all
    · simp [KvMetadata.markDeleted] at hlive
  · next hnot => exact hnot (mem_keysByLease.2 ⟨m, hm, hl, hlive⟩)

/-- Two keys are bound to the lease `5`, and one to another. -/
def boundKeys : Store := exec (directStep .commitTs) Store.empty [(.put [1] [10] (some 5), 20, ⟨1, 1, 1⟩),
  (.put [2] [10] (some 6), 21, ⟨1, 1, 2⟩), (.put [3] [10] (some 5), 22, ⟨1, 1, 3⟩)]

theorem cleanup_complete_bound : boundKeys.keysByLease 5 = [[1], [3]] ∧ ∃ s' o,
    boundKeys.deleteKeysByLeaseAtCommitTs .commitTs 5 30 ⟨1, 1, 4⟩ = .ok (s', o) ∧ s'.keysByLease 5 = [] ∧
      s'.keysByLease 6 = [[2]] := by
  have h : ∃ s' o, boundKeys.deleteKeysByLeaseAtCommitTs .commitTs 5 30 ⟨1, 1, 4⟩ = .ok (s', o) ∧
      s'.keysByLease 6 = [[2]] := ⟨_, _, rfl, by decide +kernel⟩
  obtain ⟨s', o, h, hother⟩ := h
  exact ⟨by decide +kernel, s', o, h, (cleanup_complete_iff h).2 (.inl (by decide +kernel)), hother⟩

/-- A key bound between two deliveries of one cleanup outlives the second. -/
theorem cleanup_again_leaves_key :
    let s := exec (directStep .commitTs) Store.empty
      [(.put [1] [10] (some 5), 20, ⟨1, 1, 1⟩), (.cleanup 5, 30, ⟨1, 1, 2⟩), (.put [2] [10] (some 5), 40, ⟨1, 1, 3⟩)]
    s.deleteKeysByLeaseAtCommitTs .commitTs 5 30 ⟨1, 1, 4⟩ = .ok (s, ⟨true⟩, []) ∧ s.keysByLease 5 = [[2]] :=
  ⟨rfl, by decide +kernel⟩

end Coord.Storage
