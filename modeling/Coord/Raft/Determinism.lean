import Coord.Raft.Footprint
import Coord.Storage.TxnOps

/-!
# Replicas that apply the same log

What a replica persists depends on its log and not on how the log was cut into batches (`applyBatches_store`).  It
depends on the wall clock in one place: the first revocation of a token stores the second at which the node applied it.
The commands are modelled on a node without a storage barrier; behind one a put also depends on the nonce the node
draws.
-/

namespace Coord.Storage

lemma AuthRows.revoked_write {a : AuthRows} {jti : Text} {rec : AuthRevocationRecord}
    (h : a.revoked.get jti = some rec) (nowMs : ℤ) (op : AuthOp) : (a.write nowMs op).revoked.get jti = some rec := by
  have hupdate : ∀ name f, (a.updateUser name f).revoked = a.revoked := by
    intro name f
    unfold AuthRows.updateUser
    split <;> rfl
  have hrole : ∀ role f, (a.updateRole role f).revoked = a.revoked := by
    intro role f
    unfold AuthRows.updateRole
    split <;> rfl
  cases op with
  | userSetPassword | userGrantRole | userRevokeRole => rwa [AuthRows.write, hupdate]
  | roleGrantPermission | roleRevokePermission | roleGrantCapability | roleRevokeCapability =>
    rwa [AuthRows.write, hrole]
  | revokeJti other =>
    simp only [AuthRows.write]
    split
    · exact h
    next hhas =>
    have hne : jti ≠ other := by
      rintro rfl
      exact hhas (Lib.Table.has_iff.2 ⟨rec, h⟩)
    rwa [Lib.Table.get_insert_ne _ _ hne]
  | roleAdd | issueBootstrapToken | consumeBootstrapToken =>
    simp only [AuthRows.write]
    split <;> exact h
  | _ => exact h

end Coord.Storage

namespace Coord.Raft

open Coord.Lib Coord.Storage

/-- The first revocation of a token whose entry is not a replay. -/
def readsClock (s : Store) (e : Entry) : Prop :=
  ∃ jti, e.payload = .normal (.auth (.revokeJti jti)) ∧ s.changelog.has e.logId.index = false ∧
    s.auth.revoked.has jti = false

section

variable {cfg : Config} {s : Store} {e : Entry}

lemma AuthRows.write_clock {n₁ n₂ : ℤ} {a : AuthRows} {op : AuthOp}
    (h : ∀ jti, op = .revokeJti jti → a.revoked.has jti = false → n₁.tdiv 1000 = n₂.tdiv 1000) :
    a.write n₁ op = a.write n₂ op := by
  cases op with
  | revokeJti jti =>
    simp only [AuthRows.write]
    split
    · rfl
    · next hhas => rw [h jti rfl (by simpa using hhas)]
  | _ => rfl

lemma applyEntry_clock {n₁ n₂ : ℤ} (h : readsClock s e → n₁.tdiv 1000 = n₂.tdiv 1000) :
    applyEntry cfg n₁ s e = applyEntry cfg n₂ s e := by
  unfold applyEntry
  cases he : e.payload with
  | membership config => rfl
  | blank => rfl
  | normal cmd =>
    cases cmd with
    | auth op =>
      have hauth : s.applyAuthOp cfg.mode n₁ op e.logId.index e.logId =
          s.applyAuthOp cfg.mode n₂ op e.logId.index e.logId := by
        simp only [Store.applyAuthOp]
        split
        · rfl
        next hhas =>
        have hsame : (s.noteLogIndexRevision cfg.mode e.logId.index).auth = s.auth :=
          (congrArg Store.auth (@Store.outer_noteLogIndexRevision cfg.mode s e.logId.index) : _)
        rw [hsame, @AuthRows.write_clock n₁ n₂]
        rintro jti rfl hjti
        exact h ⟨jti, he, by simpa using hhas, hjti⟩
      simp only [executeCommand, hauth]
    | _ => rfl

/-- Under clocks that do not agree the revocations differ from then on. -/
lemma applyEntry_readsClock {n : ℤ} {s' : Store} {r : Response} {jti : Text}
    (he : e.payload = .normal (.auth (.revokeJti jti))) (hhas : s.changelog.has e.logId.index = false)
    (hjti : s.auth.revoked.has jti = false) (h : applyEntry cfg n s e = .ok (s', r)) :
    s'.auth.revoked.get jti = some ⟨jti, n.tdiv 1000⟩ := by
  simp only [applyEntry, he] at h
  cases h
  have hr := congrArg (fun t => t.auth.revoked.get jti)
    (@Store.outer_applyAuthOp cfg.mode s n (.revokeJti jti) e.logId.index e.logId)
  simp only [hhas, AuthRows.write, hjti, Bool.false_eq_true, if_false, Table.get_insert_self] at hr
  exact hr

lemma applyEntry_revoked {n : ℤ} {s' : Store} {r : Response} {jti : Text} {rec : AuthRevocationRecord}
    (hrev : s.auth.revoked.get jti = some rec) (h : applyEntry cfg n s e = .ok (s', r)) :
    s'.auth.revoked.get jti = some rec := by
  rcases applyEntry_cases h with ⟨cmd, o, -, -, ht⟩ | ⟨_, houter⟩
  · by_cases hcmd : ∃ op, cmd = .auth op
    · obtain ⟨op, rfl⟩ := hcmd
      cases ht
      have hr := congrArg (fun t => t.auth.revoked.get jti)
        (@Store.outer_applyAuthOp cfg.mode s n op e.logId.index e.logId)
      refine Eq.trans hr ?_
      dsimp only
      split
      · exact hrev
      · exact AuthRows.revoked_write hrev n op
    · rw [auth_executeCommand ht fun op hop => hcmd ⟨op, hop⟩]
      exact hrev
  · have hauth : s'.auth = s.auth := (congrArg Store.auth houter : _)
    exact hauth ▸ hrev

end

/-! ### Runs -/

section

variable (cfg : Config) (c₁ c₂ : ℕ → ℤ)

/-- Wherever the entries read the clock, the two clocks show the same second. -/
def ClocksAgree (s : Store) : List Entry → Prop
  | [] => True
  | e :: es =>
    (readsClock s e → (c₁ e.logId.index).tdiv 1000 = (c₂ e.logId.index).tdiv 1000) ∧
      ∀ s' r, applyEntry cfg (c₁ e.logId.index) s e = .ok (s', r) → ClocksAgree s' es

variable {cfg c₁ c₂}

lemma applyEntries_revoked {clock : ℕ → ℤ} {s : Store} {jti : Text} {rec : AuthRevocationRecord}
    (h : s.auth.revoked.get jti = some rec) (es : List Entry) :
    (applyEntries cfg clock s es).1.auth.revoked.get jti = some rec :=
  applyEntries_inv (fun s => s.auth.revoked.get jti = some rec) h
    fun _ _ _ _ _ hstep hs => applyEntry_revoked hs hstep

lemma applyEntries_clock_iff (s : Store) (es : List Entry) :
    (applyEntries cfg c₁ s es).1 = (applyEntries cfg c₂ s es).1 ↔ ClocksAgree cfg c₁ c₂ s es := by
  induction es generalizing s with
  | nil => exact ⟨fun _ => trivial, fun _ => rfl⟩
  | cons e es ih =>
    by_cases hread : readsClock s e → (c₁ e.logId.index).tdiv 1000 = (c₂ e.logId.index).tdiv 1000
    · -- the step is the same on both sides
      have hstep := @applyEntry_clock cfg s e _ _ hread
      unfold applyEntries ClocksAgree
      rw [← hstep]
      cases h : applyEntry cfg (c₁ e.logId.index) s e with
      | error err => exact ⟨fun _ => ⟨hread, fun s' r h => by cases h⟩, fun _ => rfl⟩
      | ok out =>
        obtain ⟨s', r⟩ := out
        refine (ih s').trans ⟨fun hagree => ⟨hread, fun s'' r' h' => ?_⟩, fun hagree => hagree.2 s' r rfl⟩
        cases h'
        exact hagree
    · -- the clock is read and the seconds differ: so do the revocations, for good
      rw [Classical.not_imp] at hread
      obtain ⟨⟨jti, he, hhas, hjti⟩, hne⟩ := hread
      refine ⟨fun heq => absurd ?_ hne, fun hagree => absurd (hagree.1 ⟨jti, he, hhas, hjti⟩) hne⟩
      have hrun : ∀ clock : ℕ → ℤ, (applyEntries cfg clock s (e :: es)).1.auth.revoked.get jti =
          some ⟨jti, (clock e.logId.index).tdiv 1000⟩ := by
        intro clock
        have hok : ∃ s' r, applyEntry cfg (clock e.logId.index) s e = .ok (s', r) := by
          simp only [applyEntry, he]
          exact ⟨_, _, rfl⟩
        obtain ⟨s', r, hok⟩ := hok
        simp only [applyEntries, hok]
        exact applyEntries_revoked (applyEntry_readsClock he hhas hjti hok) es
      have h := (hrun c₁).symm.trans ((congrArg (fun t => t.auth.revoked.get jti) heq).trans (hrun c₂))
      injection h with h
      injection h

end

def freshNode : Node := ⟨Store.empty, none, none⟩

/-- The revocation of the token `[1]` as the first entry of a log. -/
def revokeEntry : Entry := ⟨⟨1, 1, 1⟩, .normal (.auth (.revokeJti [1]))⟩

/-- The put of an entry behind the barrier: `encrypt` is what the barrier of this node makes of a value, with a nonce
drawn for it, and has no result while the keyring is sealed, which stops the node.  The changelog has the value in the
clear. -/
def putEncrypted (mode : RevisionMode) (encrypt : Bytes → Option Bytes) (s : Store) (key value : Bytes)
    (leaseId : Option ℤ) (applied : AppliedLogId) : Option (Except Error (Store × ApplyOutcome)) :=
  if s.changelog.has applied.index then some (.ok (s, ⟨true⟩))
  else match s.acceptRevision mode applied.index .logIndex with
    | .error e => some (.error e)
    | .ok s => (encrypt value).map fun data =>
      .ok ((s.writePut key data (leaseId.getD 0) applied.index).writeChangelog
        ⟨applied.index, [⟨key, some value⟩], .put⟩ applied, ⟨false⟩)

/-- Without a barrier it is the put of the state machine. -/
theorem putEncrypted_plain (mode : RevisionMode) (s : Store) (key value : Bytes) (leaseId : Option ℤ)
    (applied : AppliedLogId) : putEncrypted mode (fun v => some (encryptValue none [] v)) s key value leaseId applied =
      some (s.putAtKey mode key value leaseId applied.index applied .logIndex) := by
  unfold putEncrypted Store.putAtKey Store.replayGuard
  by_cases hnew : s.changelog.has applied.index
  · simp only [hnew, if_true]
  · simp only [hnew, if_false, Bool.false_eq_true]
    cases s.acceptRevision mode applied.index .logIndex <;> rfl

end Coord.Raft
