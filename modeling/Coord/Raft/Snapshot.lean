import Coord.Raft.Footprint
import Coord.Storage.Snapshot

/-!
# Snapshots of a state machine

A state that the log led to, sent through a snapshot into another store.  The scans of the export leave out the v2
leases, so a store comes through whole exactly when it has none.

* `Store.replicated` — what a snapshot is to carry;
* `snapshot_roundTrip_iff` — when it does.
-/

namespace Coord.Storage.Store

/-- What replicas agree on: the rows of the four tables and the applied log id, the current revision and the
compaction watermark as they are read.  The trim mark and the membership are kept per node. -/
def replicated (mode : RevisionMode) (s : Store) : Store × ℕ × ℕ :=
  ({ s with trimmedBeforeRow := none, membershipRow := none, currentRevisionRow := none, compactedRevisionRow := none },
    s.currentRevision mode, s.compactedRevision)

lemma compactedRevision_throughSnapshot (mode : RevisionMode) (s t : Store) (index : ℕ) :
    (s.throughSnapshot mode t index).compactedRevision = s.compactedRevision := by
  have hrow : (s.throughSnapshot mode t index).compactedRevisionRow =
    if 0 < s.compactedRevision then some s.compactedRevision else none := rfl
  rw [compactedRevision, hrow]
  split
  · rfl
  · rw [Option.getD_none]
    omega

/-- The revision comes through, unless a v1 store has recorded the revision `0`. -/
lemma currentRevision_throughSnapshot {mode : RevisionMode} {s : Store} {applied : AppliedLogId}
    (ha : s.lastApplied = some applied) (hzero : mode = .logIndex → s.currentRevisionRow ≠ some 0) (t : Store)
    (index : ℕ) :
    (s.throughSnapshot mode t index).currentRevision mode = s.currentRevision mode := by
  have hs : { s with lastApplied := some (s.lastApplied.getD ⟨0, 0, index⟩) } = s := by
    rw [ha]
    exact ha ▸ rfl
  have hcur : (s.throughSnapshot mode t index).currentRevisionRow =
      if 0 < s.currentRevision mode then some (s.currentRevision mode) else none := by
    simp only [throughSnapshot, hs]
  by_cases hpos : 0 < s.currentRevision mode
  · rw [if_pos hpos] at hcur
    exact currentRevision_of_row hcur
  rw [if_neg hpos] at hcur
  have hlast : (s.throughSnapshot mode t index).lastApplied = some applied := by
    simp [throughSnapshot, ha]
  cases mode with
  | commitTs =>
    simp only [currentRevision, hcur] at hpos ⊢
    omega
  | logIndex =>
    cases hrow : s.currentRevisionRow with
    | none => simp [currentRevision, hcur, hlast, hrow, ha]
    | some v =>
      rw [currentRevision_of_row hrow] at hpos
      exact absurd (by rw [hrow]; congr; omega) (hzero rfl)

end Coord.Storage.Store

namespace Coord.Raft

open Coord.Lib Coord.Storage Store

variable {cfg : Config} {clock : ℕ → ℤ}

lemma applyEntries_revision_ne_zero (es : List Entry) (hmode : cfg.mode = .logIndex) :
    (applyEntries cfg clock Store.empty es).1.currentRevisionRow ≠ some 0 := by
  refine applyEntries_inv (fun s => s.currentRevisionRow ≠ some 0) (by simp [Store.empty]) ?_
  intro s e _ s' r h hs
  rcases (raises_applyEntry h).revision with hrow | ⟨v, hrow, -, hv⟩
  · exact hrow ▸ hs
  intro h0
  have : v = 0 := Option.some.inj (hrow.symm.trans h0)
  have := hv hmode
  omega

/-- **A state comes through a snapshot whole exactly when it has no v2 lease, no request id of one, and has recorded
an applied entry.** -/
theorem snapshot_roundTrip_iff (es : List Entry) (t : Store) (lastIncludedIndex lastIncludedTerm : ℕ)
    (ht : t.currentRevision cfg.mode ≤ (applyEntries cfg clock Store.empty es).1.currentRevision cfg.mode) :
    (∃ t', t.importSnapshotData cfg.mode ((applyEntries cfg clock Store.empty es).1.exportSnapshotData cfg.mode
        lastIncludedIndex lastIncludedTerm) = .ok t' ∧
      t'.replicated cfg.mode = (applyEntries cfg clock Store.empty es).1.replicated cfg.mode) ↔
    (applyEntries cfg clock Store.empty es).1.leasesV2 = Table.empty ∧
      (applyEntries cfg clock Store.empty es).1.leaseV2Requests = Table.empty ∧
      (applyEntries cfg clock Store.empty es).1.lastApplied ≠ none := by
  have hzero := @applyEntries_revision_ne_zero cfg clock es
  generalize (applyEntries cfg clock Store.empty es).1 = s at ht hzero ⊢
  have himport := importSnapshotData_export cfg.mode s t lastIncludedIndex lastIncludedTerm ht
  constructor
  · rintro ⟨t', ht', heq⟩
    obtain rfl : t' = _ := Except.ok.inj (ht'.symm.trans himport)
    have hstore := congrArg Prod.fst heq
    refine ⟨(congrArg leasesV2 hstore).symm, (congrArg leaseV2Requests hstore).symm, fun hnone => ?_⟩
    have hlast : some (s.lastApplied.getD ⟨0, 0, lastIncludedIndex⟩) = s.lastApplied :=
      (congrArg lastApplied hstore : _)
    rw [hnone] at hlast
    cases hlast
  · rintro ⟨hleases, hrequests, hlast⟩
    obtain ⟨applied, ha⟩ := Option.ne_none_iff_exists'.1 hlast
    refine ⟨_, himport, ?_⟩
    refine Prod.ext ?_ (Prod.ext ?_ ?_)
    · simp only [Store.replicated, throughSnapshot, ha, hleases, hrequests, Option.getD_some]
    · exact Store.currentRevision_throughSnapshot ha hzero t lastIncludedIndex
    · exact Store.compactedRevision_throughSnapshot cfg.mode s t lastIncludedIndex

/-- The grant of lease `7` for one minute, with request id `[1]`, as the first entry of a log. -/
def grantEntry : Entry := ⟨⟨1, 1, 1⟩, .normal (.leaseV2 (.grant 7 60 10 60000 [1]))⟩

/-- The write of a key as the first entry of a log. -/
def putEntry : Entry := ⟨⟨1, 1, 1⟩, .normal (.putV2 [97] [98] none 10)⟩

/-- **The granted lease is lost**: the state after one grant does not come through to an empty store. -/
theorem snapshot_drops_leaseV2 :
    (applyEntries plainConfig (fun _ => 0) Store.empty [grantEntry]).1.leasesV2.rows.length = 1 ∧
    ¬ ∃ t', Store.empty.importSnapshotData .commitTs
        ((applyEntries plainConfig (fun _ => 0) Store.empty [grantEntry]).1.exportSnapshotData .commitTs 1 1) = .ok t' ∧
      t'.replicated .commitTs =
        (applyEntries plainConfig (fun _ => 0) Store.empty [grantEntry]).1.replicated .commitTs := by
  refine ⟨by decide +kernel, ?_⟩
  rintro ⟨t', ht', heq⟩
  rw [importSnapshotData_export .commitTs _ _ 1 1 (by decide +kernel)] at ht'
  cases ht'
  exact absurd (congrArg (fun p => p.1.leasesV2.rows.length) heq) (by decide +kernel)

/-- Writes, a delete and a lease of the first version. -/
def leaseLog : List Entry := [putEntry, ⟨⟨1, 1, 2⟩, .normal (.lease (.grant 7 60 60000))⟩,
  ⟨⟨1, 1, 3⟩, .normal (.putV2 [99] [98] (some 7) 11)⟩, ⟨⟨1, 1, 4⟩, .normal (.deleteV2 [97] 12)⟩]

/-- A store that is behind, with a key of its own, takes the snapshot over. -/
theorem snapshot_roundTrip_leaseLog :
    let t := (applyEntries plainConfig (fun _ => 0) Store.empty [⟨⟨1, 1, 1⟩, .normal (.putV2 [100] [1] none 5)⟩]).1
    let s := (applyEntries plainConfig (fun _ => 0) Store.empty leaseLog).1
    t.get [100] = some [1] ∧ s.get [97] = none ∧ s.get [99] = some [98] ∧
      ∃ t', t.importSnapshotData .commitTs (s.exportSnapshotData .commitTs 4 1) = .ok t' ∧
        t'.replicated .commitTs = s.replicated .commitTs :=
  ⟨by decide +kernel, by decide +kernel, by decide +kernel,
    (@snapshot_roundTrip_iff plainConfig (fun _ => 0) leaseLog _ 4 1
    (by decide +kernel)).2 (by decide +kernel)⟩

end Coord.Raft
