import Coord.Raft.Group
import Coord.Storage.SequencerOcc

/-!
# The decision log along a log

* `extends_applySequencerOp` — a batch adds decisions above the last one, and keeps the others;
* `decisions_applyEntry`, `cursor_applyEntry`, `watermark_applyEntry` — the decisions, the cursor of the decisions
  applied and the published watermark around an entry;
* `Group.decisions_kept` — the decisions on two replicas.
-/

namespace Coord.Storage

open Coord.Lib Coord.Raft

/-- Every decision stands under its timestamp, at or below the last one. -/
def SequencerRows.Ordered (st : SequencerRows) : Prop :=
  ∀ c d, st.decisions.get c = some d → d.commitTs = c ∧ c ≤ st.last

/-- `st'` has the decisions of `st` and others above the last one. -/
structure SequencerRows.Extends (st st' : SequencerRows) : Prop where
  decisions : Table.Grows (fun c _ => st.last < c) st.decisions st'.decisions
  last : st.last ≤ st'.last

lemma SequencerRows.Extends.refl (st : SequencerRows) : st.Extends st := ⟨Table.Grows.refl _ _, le_rfl⟩

lemma SequencerRows.Extends.trans {st st₁ st₂ : SequencerRows} (h : st.Extends st₁) (h' : st₁.Extends st₂) :
    st.Extends st₂ :=
  ⟨h.decisions.trans (h'.decisions.mono fun _ _ hlt => h.last.trans_lt hlt), h.last.trans h'.last⟩

section

variable {sequencerHash : HashDomain → List Bytes → Bytes} {st : SequencerRows}

lemma extends_validateStep (h : st.Ordered) (c : Candidate) :
    st.Extends (validateStep sequencerHash st c).1 ∧ (validateStep sequencerHash st c).1.Ordered := by
  rcases @validateStep_cases sequencerHash st c with ⟨hc, he⟩ | ⟨o, -, he⟩
  · rw [he]
    have hlast := (outcome_committed hc).2.2.2.2.1
    have hnone : st.decisions.get c.txn.commitTs = none := by
      cases hget : st.decisions.get c.txn.commitTs with
      | none => rfl
      | some d =>
        have hle := (h _ d hget).2
        omega
    refine ⟨⟨?_, by rw [recordDecision_last]; exact hlast.le⟩, fun ts d hd => ?_⟩
    · rw [recordDecision_decisions]
      refine (Table.grows_insert _ hnone).mono ?_
      rintro k v ⟨rfl, -⟩
      exact hlast
    · rw [recordDecision_decisions] at hd
      rw [recordDecision_last]
      rcases Table.get_insert_cases hd with ⟨hts, rfl⟩ | ⟨-, hd⟩
      · exact ⟨hts.symm, hts.le⟩
      · obtain ⟨hts, hle⟩ := h ts d hd
        exact ⟨hts, hle.trans hlast.le⟩
  · rw [he]
    exact ⟨.refl st, h⟩

theorem extends_applySequencerOp (h : st.Ordered) (op : SequencerOp) :
    st.Extends (applySequencerOp sequencerHash st op).1 ∧ (applySequencerOp sequencerHash st op).1.Ordered :=
  exec_inv (fun st' => st.Extends st' ∧ st'.Ordered) ⟨.refl st, h⟩ fun _ c _ hst' =>
    ⟨hst'.1.trans (extends_validateStep hst'.2 c).1, (extends_validateStep hst'.2 c).2⟩

end

lemma Store.cursor_applyRangeImport {mode : RevisionMode} {s s' : Store} {start stop : Bytes}
    {rows : List VersionedKv} {watermark : ℕ} {sealed done : Bool} {applied : AppliedLogId} {o : ℕ}
    (h : s.applyRangeImport mode start stop rows watermark sealed done applied = .ok (s', o)) :
    s.lastAppliedDecisionTs ≤ s'.lastAppliedDecisionTs := by
  obtain ⟨-, -, s₁, himport, rfl⟩ := applyRangeImport_cases h
  have hcursor : s₁.lastAppliedDecisionTs = s.lastAppliedDecisionTs :=
    (congrArg lastAppliedDecisionTs (rowsOnly_importRows himport).outer : _)
  rw [← hcursor]
  cases done with
  | false => exact le_rfl
  | true =>
    cases sealed with
    | false => exact le_rfl
    | true => exact le_max_left _ _

end Coord.Storage

namespace Coord.Raft

open Coord.Lib Coord.Storage

section

variable {cfg : Config} {nowMs : ℤ} {s s' : Store} {e : Entry} {r : Response}

theorem decisions_applyEntry (h : applyEntry cfg nowMs s e = .ok (s', r)) (hs : s.seq.Ordered) :
    s.seq.Extends s'.seq ∧ s'.seq.Ordered := by
  have hsame : s'.seq = s.seq → s.seq.Extends s'.seq ∧ s'.seq.Ordered := fun hseq => by
    rw [hseq]
    exact ⟨.refl _, hs⟩
  rcases applyEntry_cases h with ⟨cmd, o, -, -, ht⟩ | ⟨_, houter⟩
  · have hout := outside_executeCommand ht
    cases cmd with
    | sequencer op =>
      have hnote : (s.noteLogIndexRevision cfg.mode e.logId.index).seq = s.seq :=
        (congrArg Store.seq (@Store.outer_noteLogIndexRevision cfg.mode s e.logId.index) : _)
      have hseq : (applySequencerOp cfg.sequencerHash s.seq op).1 = s'.seq := by
        rw [← hnote]
        exact congrArg (fun x => x.1.seq) (Except.ok.inj ht)
      rw [← hseq]
      exact extends_applySequencerOp hs op
    | _ => exact hsame (congrArg Store.seq hout : _)
  · exact hsame (congrArg Store.seq houter : _)

theorem cursor_applyEntry (h : applyEntry cfg nowMs s e = .ok (s', r)) :
    s.lastAppliedDecisionTs ≤ s'.lastAppliedDecisionTs := by
  rcases applyEntry_cases h with ⟨cmd, o, -, -, ht⟩ | ⟨_, houter⟩
  · have hout := outside_executeCommand ht
    cases cmd with
    | applyCommitDecisions decisions =>
      cases ht
      exact (Store.grows_applyCommitDecisionsCore s cfg.mode _ _ _).2
    | applyCommitDecisionsWithLog maxTxnBytes decisions =>
      cases ht
      exact (Store.grows_applyCommitDecisionsCore s cfg.mode _ _ _).2
    | importRange startKey endKey rows watermark done =>
      obtain ⟨_, himport⟩ := map_ok ht
      exact Store.cursor_applyRangeImport himport
    | importRangePreserveHistory startKey endKey rows watermark done =>
      obtain ⟨_, himport⟩ := map_ok ht
      exact Store.cursor_applyRangeImport himport
    | _ => exact (congrArg Store.lastAppliedDecisionTs hout : _).ge
  · exact (congrArg Store.lastAppliedDecisionTs houter : _).ge

theorem watermark_applyEntry (h : applyEntry cfg nowMs s e = .ok (s', r))
    (hp : ∀ watermark, e.payload ≠ .normal (.publishCommitWatermark watermark)) :
    s'.commitWatermark = s.commitWatermark := by
  rcases applyEntry_cases h with ⟨cmd, o, hcmd, -, ht⟩ | ⟨_, houter⟩
  · have hout := outside_executeCommand ht
    cases cmd with
    | publishCommitWatermark watermark => exact absurd hcmd (hp watermark)
    | _ => exact (congrArg Store.commitWatermark hout : _)
  · exact (congrArg Store.commitWatermark houter : _)

end

/-- **Replicas agree on the decisions.** A replica that is ahead has every decision of the other, its further
decisions are above the last of those, and it has applied no fewer. -/
theorem Group.decisions_kept (g : Group) (n j : ℕ) : (g.storeAt n).seq.Extends (g.storeAt (n + j)).seq ∧
    (g.storeAt n).lastAppliedDecisionTs ≤ (g.storeAt (n + j)).lastAppliedDecisionTs := by
  have hordered : (g.storeAt n).seq.Ordered := g.storeAt_inv (·.seq.Ordered) (fun _ _ h => by cases h)
    (fun _ _ _ _ h hs => (decisions_applyEntry h hs).2) n
  have hle := Nat.le_add_right n j
  refine ⟨?_, g.storeAt_mono (·.lastAppliedDecisionTs ≤ ·.lastAppliedDecisionTs) (fun _ => le_rfl)
    (fun _ _ _ => le_trans) (fun _ _ _ _ => cursor_applyEntry) hle⟩
  refine (g.storeAt_mono (fun s t => s.seq.Ordered → s.seq.Extends t.seq ∧ t.seq.Ordered) (fun s h => ⟨.refl s.seq, h⟩)
    (fun s t u h h' hs => ?_) (fun _ _ _ _ => decisions_applyEntry) hle hordered).1
  obtain ⟨hext, ht⟩ := h hs
  exact ⟨hext.trans (h' ht).1, (h' ht).2⟩

end Coord.Raft
