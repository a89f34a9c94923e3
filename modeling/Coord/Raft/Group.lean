import Coord.Raft.Footprint
import Coord.Storage.CommitLogRows

/-!
# Raft groups and their replicas

The replicas of a group apply one log, each as much of it as has reached it.  A read on a node sees the store that a
beginning of the log gives, and two reads may see different ones.

* `Group`, `Group.storeAt` — a group, and what a replica holds;
* `Group.storeAt_inv` — what every entry keeps holds on every replica;
* `Group.storeAt_mono` — what an entry does to the store, over a longer stretch of the log;
* `commitLog_applyEntry`, `Group.keyed_storeAt` — the commit log around an entry, and on every replica.
-/

namespace Coord.Raft

open Coord.Storage Store

/-- A group: its configuration, the wall clock of its entries and its log. -/
structure Group where
  config : Config
  clock : ℕ → ℤ
  log : List Entry

namespace Group

variable {g : Group}

/-- A replica that has applied the first `n` entries. -/
def storeAt (g : Group) (n : ℕ) : Store := (applyEntries g.config g.clock Store.empty (g.log.take n)).1

theorem storeAt_inv (I : Store → Prop) (h0 : I Store.empty)
    (hstep : ∀ s e s' r, applyEntry g.config (g.clock e.logId.index) s e = .ok (s', r) → I s → I s') (n : ℕ) :
    I (g.storeAt n) :=
  applyEntries_inv I h0 fun s e _ s' r h hs => hstep s e s' r h hs

/-- **A longer beginning of the log.**  What relates the stores around every entry, and is reflexive and transitive,
relates what two replicas hold. -/
theorem storeAt_mono (R : Store → Store → Prop) (hrefl : ∀ s, R s s) (htrans : ∀ s t u, R s t → R t u → R s u)
    (hstep : ∀ s e s' r, applyEntry g.config (g.clock e.logId.index) s e = .ok (s', r) → R s s') {n k : ℕ}
    (hle : n ≤ k) : R (g.storeAt n) (g.storeAt k) := by
  have hrun : ∀ s (es : List Entry), R s (applyEntries g.config g.clock s es).1 := fun s es =>
    applyEntries_inv (R s) (hrefl s) fun t e _ t' r h ht => htrans s t t' ht (hstep t e t' r h)
  have hsplit : g.log.take k = g.log.take n ++ (g.log.take k).drop n := by
    have hn : g.log.take n = (g.log.take k).take n := by rw [List.take_take, Nat.min_eq_left hle]
    rw [hn, List.take_append_drop]
  unfold storeAt
  rw [hsplit, applyEntries_append]
  rcases applyEntries g.config g.clock Store.empty (g.log.take n) with ⟨s, _ | err⟩
  · exact hrun s _
  · exact hrefl s

end Group

/-! ### The commit log -/

/-- An entry leaves the commit log as it is, or carries one of the commands that write to it. -/
theorem commitLog_applyEntry {cfg : Config} {nowMs : ℤ} {s s' : Store} {e : Entry} {r : Response}
    (h : applyEntry cfg nowMs s e = .ok (s', r)) :
    s'.commitLog = s.commitLog ∨ ∃ cmd o, e.payload = .normal cmd ∧ cmd.writesLog = true ∧
      executeCommand cfg nowMs s cmd e.logId.index e.logId = .ok (s', o) := by
  rcases applyEntry_cases h with ⟨cmd, o, hp, -, ht⟩ | ⟨_, houter⟩
  · by_cases hlog : cmd.writesLog = false
    · exact .inl (commitLog_executeCommand ht hlog)
    · exact .inr ⟨cmd, o, hp, by simpa using hlog, ht⟩
  · exact .inl (congrArg commitLog houter : _)

lemma keyed_applyEntry {cfg : Config} {nowMs : ℤ} {s s' : Store} {e : Entry} {r : Response}
    (h : applyEntry cfg nowMs s e = .ok (s', r)) (hs : Keyed s.commitLog) : Keyed s'.commitLog := by
  rcases commitLog_applyEntry h with hsame | ⟨cmd, o, -, hlog, ht⟩
  · rwa [hsame]
  cases cmd with
  | applyCommitDecisions decisions =>
    cases ht
    exact hs.grows (grows_applyCommitDecisionsCore s cfg.mode _ _ _).1
  | applyCommitDecisionsWithLog maxTxnBytes decisions =>
    cases ht
    exact hs.grows (grows_applyCommitDecisionsCore s cfg.mode _ _ _).1
  | commitLogAppend shardId startTs endTs maxTxnBytes records =>
    cases ht
    exact hs.grows (grows_applyCommitLogAppend s cfg.mode records _ _)
  | trimCommitLogOutbox throughTs maxRows =>
    obtain rfl : (s.trimCommitLogOutbox cfg.mode throughTs maxRows e.logId).1 = s' :=
      congrArg Prod.fst (Except.ok.inj ht)
    intro k r hk
    rcases get_trimCommitLogOutbox s cfg.mode throughTs maxRows e.logId k with hget | ⟨hget, -⟩
    · exact hs k r (hget ▸ hk)
    · rw [hget] at hk
      cases hk
  | _ => cases hlog

theorem Group.keyed_storeAt (g : Group) (n : ℕ) : Keyed (g.storeAt n).commitLog :=
  g.storeAt_inv (fun s => Keyed s.commitLog) keyed_empty (fun _ _ _ _ h hs => keyed_applyEntry h hs) n

end Coord.Raft
