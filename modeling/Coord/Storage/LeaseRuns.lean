import Coord.Storage.Frames

/-!
# Runs of v2 lease operations

* `LeaseV2Record.Keeps` — what no operation takes from a lease;
* `leaseV2_run` — every sequence of operations in which no keep-alive lowers a deadline.
-/

namespace Coord.Storage

open Coord.Lib

/-- The lease stays the one that was granted, and stays revoked at a timestamp that only grows. -/
structure LeaseV2Record.Keeps (old new : LeaseV2Record) : Prop where
  ttl : new.ttl = old.ttl
  grantedTs : new.grantedTs = old.grantedTs
  grantRequestId : new.grantRequestId = old.grantRequestId
  revoked : old.revoked = true → new.revoked = true ∧ old.revokedCommitTs ≤ new.revokedCommitTs

lemma LeaseV2Record.Keeps.refl (r : LeaseV2Record) : r.Keeps r := ⟨rfl, rfl, rfl, fun h => ⟨h, le_rfl⟩⟩

lemma LeaseV2Record.Keeps.trans {a b c : LeaseV2Record} (h : a.Keeps b) (h' : b.Keeps c) : a.Keeps c where
  ttl := h'.ttl.trans h.ttl
  grantedTs := h'.grantedTs.trans h.grantedTs
  grantRequestId := h'.grantRequestId.trans h.grantRequestId
  revoked := fun hr =>
    have hb := h.revoked hr
    ⟨(h'.revoked hb.1).1, hb.2.trans (h'.revoked hb.1).2⟩

namespace Store

variable {s : Store} {id : ℤ} {r : LeaseV2Record}

lemma keeps_revokedRecord {r' : LeaseV2Record} {commitTs : ℕ} {expected : ℤ}
    (h : revokedRecord r commitTs expected = some r') : r.Keeps r' ∧ r'.deadlineWallMs = r.deadlineWallMs := by
  unfold revokedRecord at h
  split_ifs at h with hlive _ hlater
  · cases h
    exact ⟨⟨rfl, rfl, rfl, fun hr => absurd hr (by simpa using hlive)⟩, rfl⟩
  · cases h
    exact ⟨⟨rfl, rfl, rfl, fun hr => ⟨hr, hlater.le⟩⟩, rfl⟩

/-- A lease keeps its grant under an operation, only a keep-alive moves its deadline, and a request id keeps the lease
that it was given. -/
lemma writeLeaseV2Op_keeps (h : s.leasesV2.get id = some r) (op : LeaseV2Op) :
    (∃ r', (s.writeLeaseV2Op op).1.leasesV2.get id = some r' ∧ r.Keeps r' ∧
      (r'.deadlineWallMs = r.deadlineWallMs ∨ r.revoked = false ∧ op = .keepAlive id r'.deadlineWallMs)) ∧
    ∀ req ≠ [], s.leaseV2Requests.get req = some id → (s.writeLeaseV2Op op).1.leaseV2Requests.get req = some id := by
  have hput : ∀ {id' r₁ r'}, s.leasesV2.get id' = some r₁ → r₁.Keeps r' →
      (r'.deadlineWallMs = r₁.deadlineWallMs ∨ r₁.revoked = false ∧ op = .keepAlive id' r'.deadlineWallMs) →
      ∃ r'', (s.leasesV2.insert id' r').get id = some r'' ∧ r.Keeps r'' ∧
        (r''.deadlineWallMs = r.deadlineWallMs ∨ r.revoked = false ∧ op = .keepAlive id r''.deadlineWallMs) := by
    intro id' r₁ r' hr₁ hkeep hdeadline
    rw [Table.get_insert]
    split
    · next hid =>
      cases hid
      cases hr₁.symm.trans h
      exact ⟨r', rfl, hkeep, hdeadline⟩
    · exact ⟨r, h, .refl r, .inl rfl⟩
  have hsame : ∃ r', s.leasesV2.get id = some r' ∧ r.Keeps r' ∧
      (r'.deadlineWallMs = r.deadlineWallMs ∨ r.revoked = false ∧ op = .keepAlive id r'.deadlineWallMs) :=
    ⟨r, h, .refl r, .inl rfl⟩
  cases op with
  | grant id' ttl ts deadline req' =>
    simp only [writeLeaseV2Op, grantLeaseV2]
    split
    · exact ⟨hsame, fun _ _ h => h⟩
    next hnone =>
    split
    · exact ⟨hsame, fun _ _ h => h⟩
    next hnew =>
    refine ⟨⟨r, ?_, .refl r, .inl rfl⟩, fun req hne hid => ?_⟩
    · rw [Table.get_insert, if_neg, h]
      rintro rfl
      cases hnew.symm.trans h
    · dsimp only
      split
      · exact hid
      · rw [Table.get_insert, if_neg, hid]
        rintro rfl
        simp [grantedBy, hne, hid, h] at hnone
  | keepAlive id' deadline =>
    simp only [writeLeaseV2Op]
    split
    · next r₁ hr₁ =>
      obtain ⟨hr₁, hlive⟩ := Option.filter_eq_some_iff.1 hr₁
      exact ⟨hput hr₁ ⟨rfl, rfl, rfl, fun h => ⟨h, le_rfl⟩⟩ (.inr ⟨by simpa using hlive, rfl⟩), fun _ _ h => h⟩
    · exact ⟨hsame, fun _ _ h => h⟩
  | revoke id' commitTs expected req' =>
    simp only [writeLeaseV2Op]
    split
    · next r' hr' =>
      obtain ⟨r₁, hr₁, hrev⟩ := Option.bind_eq_some_iff.1 hr'
      obtain ⟨hkeep, hdeadline⟩ := keeps_revokedRecord hrev
      exact ⟨hput hr₁ hkeep (.inl hdeadline), fun _ _ h => h⟩
    · exact ⟨hsame, fun _ _ h => h⟩

lemma leasesV2_noteLogIndexRevision (mode : RevisionMode) (s : Store) (revision : ℕ) :
    (s.noteLogIndexRevision mode revision).leasesV2 = s.leasesV2 ∧
    (s.noteLogIndexRevision mode revision).leaseV2Requests = s.leaseV2Requests :=
  have h := @outer_noteLogIndexRevision mode s revision
  ⟨(congrArg Store.leasesV2 h : _), (congrArg Store.leaseV2Requests h : _)⟩

/-- One entry of the log, with its operation, its revision and its position. -/
def leaseStep (mode : RevisionMode) (s : Store) (e : LeaseV2Op × ℕ × AppliedLogId) : Store × LeaseV2Apply :=
  s.applyLeaseV2Op mode e.1 e.2.1 e.2.2

lemma exec_keeps (mode : RevisionMode) (entries : List (LeaseV2Op × ℕ × AppliedLogId))
    (h : s.leasesV2.get id = some r) :
    (∃ r', (exec (leaseStep mode) s entries).leasesV2.get id = some r' ∧ r.Keeps r') ∧
    ∀ req ≠ [], s.leaseV2Requests.get req = some id →
      (exec (leaseStep mode) s entries).leaseV2Requests.get req = some id := by
  refine exec_inv (fun t : Store => (∃ r', t.leasesV2.get id = some r' ∧ r.Keeps r') ∧
    ∀ req ≠ [], s.leaseV2Requests.get req = some id → t.leaseV2Requests.get req = some id)
    ⟨⟨r, h, .refl r⟩, fun _ _ h => h⟩ ?_
  rintro t e - ⟨⟨r₁, hr₁, hkeep₁⟩, hreq₁⟩
  obtain ⟨hleases, hrequests⟩ := leasesV2_noteLogIndexRevision mode t e.2.1
  obtain ⟨⟨r', hr', hkeep', -⟩, hreq'⟩ :=
    @writeLeaseV2Op_keeps (t.noteLogIndexRevision mode e.2.1) id r₁ (hleases ▸ hr₁) e.1
  exact ⟨⟨r', hr', hkeep₁.trans hkeep'⟩, fun req hne hid => hreq' req hne (hrequests ▸ hreq₁ req hne hid)⟩

/-- A keep-alive does not lower the deadline of a live lease. -/
def Prolongs (s : Store) (e : LeaseV2Op × ℕ × AppliedLogId) : Prop :=
  ∀ id deadline, e.1 = .keepAlive id deadline → ∀ r, s.leasesV2.get id = some r → r.revoked = false →
    r.deadlineWallMs ≤ deadline

lemma exec_prolonged {mode : RevisionMode} {entries : List (LeaseV2Op × ℕ × AppliedLogId)}
    (hp : Along (leaseStep mode) Prolongs s entries) (h : s.leasesV2.get id = some r) :
    ∃ r', (exec (leaseStep mode) s entries).leasesV2.get id = some r' ∧ r.deadlineWallMs ≤ r'.deadlineWallMs := by
  refine (along_inv (fun t : Store => ∃ r', t.leasesV2.get id = some r' ∧ r.deadlineWallMs ≤ r'.deadlineWallMs) _
    ⟨r, h, le_rfl⟩ hp ?_).1
  rintro t e hprolongs ⟨r₁, hr₁, hle⟩
  have hleases := (leasesV2_noteLogIndexRevision mode t e.2.1).1
  obtain ⟨⟨r', hr', -, hdeadline⟩, -⟩ :=
    @writeLeaseV2Op_keeps (t.noteLogIndexRevision mode e.2.1) id r₁ (hleases ▸ hr₁) e.1
  refine ⟨r', hr', ?_⟩
  rcases hdeadline with hsame | ⟨hlive, hop⟩
  · exact hle.trans hsame.ge
  · exact hle.trans (hprolongs id _ hop r₁ hr₁ hlive)

end Store

end Coord.Storage
