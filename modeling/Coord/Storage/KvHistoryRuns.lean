import Coord.Storage.KvHistory
import Coord.Storage.Revisions

/-!
# The past of a store after a run

A batch of decisions is one step that passes many revisions, so its loop is followed decision by decision; every
other operation is one write, a compaction or an entry that only records itself.
-/

namespace Coord.Storage

open Coord.Lib Coord.Lib.History Store KeyView List

/-! ### The loop over a batch of decisions -/

section

variable {size : CommitRecord → ℕ} {maxTxnBytes : ℕ}

open Store (DecisionLoop applyDecisionLoop)

/-- The store the loop would leave if it ended here, on a v2 store. -/
def loopStore (l : DecisionLoop) : Store :=
  { l.store with currentRevisionRow := some l.current, decisionApplied := some l.through }

variable {l : DecisionLoop} {past : ℕ → Bytes → KeyView}

lemma hist_applyDecision (h : Hist .commitTs (loopStore l) past)
    {view : DecisionView} (hts : l.current < view.commitTs) (count : ℕ) (previous : Option ℕ) :
    let l₁ : DecisionLoop :=
      ⟨l.store.applyDecision size maxTxnBytes view, view.commitTs, view.commitTs, count, previous⟩
    Hist .commitTs (loopStore l₁) (extendTo .commitTs past (loopStore l) (loopStore l₁)) := by
  intro l₁
  have hw := wrote_mutations (s := l.store) h.rows view.commitTs view.mutations
  have hlt : ∀ row ∈ l.store.changelog.rows, row.1 < view.commitTs :=
    fun row hrow => (h.revisions row hrow).trans_lt hts
  -- the changelog gets the entry, unless nothing changed
  set changes := (l.store.applyMutations view.commitTs view.mutations).2.1
  set s₁ := (l.store.applyMutations view.commitTs view.mutations).1
  set s₂ : Store := if changes = [] then s₁
    else { s₁ with changelog := s₁.changelog.insert view.commitTs ⟨view.commitTs, changes, .txn⟩ } with hs₂
  obtain ⟨log, hlog⟩ := appendDecisionRecord_frame size maxTxnBytes s₂ view
    (l.store.applyMutations view.commitTs view.mutations).2.2
  have hstore : l₁.store = { s₂ with commitLog := log } := hlog
  have hframe : s₂ = { l.store with kv := s₁.kv, kvMeta := s₁.kvMeta, changelog := s₂.changelog } := by
    rw [hs₂]
    split
    · rw [hw.frame]
    · rw [hw.frame]
  have hc₁ : s₁.changelog = l.store.changelog := by rw [hw.frame]
  have hwrites : s₂.writes = l.store.writes ++ stamp view.commitTs (changePairs changes) ∧
      ∀ row ∈ s₂.changelog.rows, row.1 ≤ view.commitTs ∧ row.2.revision = row.1 := by
    by_cases hnil : changes = []
    · have : s₂.changelog = l.store.changelog := by rw [hs₂, if_pos hnil, hc₁]
      refine ⟨?_, fun row hrow => ⟨(hlt row (this ▸ hrow)).le, h.stamped row (this ▸ hrow)⟩⟩
      simp [Store.writes, this, hnil, changePairs, stamp]
    · have hc : s₂.changelog = l.store.changelog.insert view.commitTs ⟨view.commitTs, changes, .txn⟩ := by
        rw [hs₂, if_neg hnil, hc₁]
      refine ⟨writes_insert hlt hc, fun row hrow => ?_⟩
      rw [hc] at hrow
      rcases Table.mem_insert.1 hrow with rfl | ⟨hrow, -⟩
      · exact ⟨le_rfl, rfl⟩
      · exact ⟨(hlt row hrow).le, h.stamped row hrow⟩
  have hfields : (loopStore l₁).kv = s₁.kv ∧ (loopStore l₁).kvMeta = s₁.kvMeta ∧
      (loopStore l₁).changelog = s₂.changelog ∧
      (loopStore l₁).compactedRevision = (loopStore l).compactedRevision ∧
      (loopStore l₁).importHistoryFloors = (loopStore l).importHistoryFloors := by
    unfold loopStore
    rw [hstore, hframe]
    exact ⟨rfl, rfl, rfl, rfl, rfl⟩
  obtain ⟨hkv, hm, hc, hlo, hf⟩ := hfields
  refine h.write hts hw (fun _ => counted_mutations l.store view.commitTs view.mutations) rfl rfl hkv hm ?_ ?_ hlo rfl
    hf le_rfl
  · have : (loopStore l₁).writes = s₂.writes := by simp only [Store.writes, hc]
    rw [this]
    exact hwrites.1
  · rw [hc]
    exact hwrites.2

/-- The loop after the longest prefix of the batch that has not passed `T`. -/
def loopAt (size : CommitRecord → ℕ) (maxTxnBytes T : ℕ) (l : DecisionLoop) (views : List DecisionView) :
    DecisionLoop :=
  (((views.inits.map (applyDecisionLoop size maxTxnBytes l)).filter
    fun l' => decide (l'.current ≤ T)).getLast?).getD l

lemma loopAt_cons {T : ℕ} {l₁ : DecisionLoop} {view : DecisionView} (views : List DecisionView)
    (hnext : ∀ p, applyDecisionLoop size maxTxnBytes l (view :: p) =
      applyDecisionLoop size maxTxnBytes l₁ p) (hT : l.current ≤ T) :
    loopAt size maxTxnBytes T l (view :: views) =
      if l₁.current ≤ T then loopAt size maxTxnBytes T l₁ views else l := by
  have hmap : (view :: views).inits.map (applyDecisionLoop size maxTxnBytes l) =
      l :: views.inits.map (applyDecisionLoop size maxTxnBytes l₁) := by
    simp only [List.inits, map_cons, map_map]
    exact congrArg₂ List.cons rfl (map_congr_left fun p _ => hnext p)
  unfold loopAt
  rw [hmap, filter_cons_of_pos (by simpa using hT)]
  split
  · next h₁ =>
    -- the prefix without decisions has not passed `T`, so the prefixes from `l₁` on decide
    obtain ⟨rest, hrest⟩ : ∃ rest, views.inits = [] :: rest := by
      cases views <;> exact ⟨_, rfl⟩
    have hpos : decide ((applyDecisionLoop size maxTxnBytes l₁ []).current ≤ T) = true := decide_eq_true h₁
    rw [hrest, map_cons, filter_cons_of_pos (p := fun l' : DecisionLoop => decide (l'.current ≤ T)) hpos]
    simp [getLast?_cons]
  · next h₁ =>
    have hnil : (views.inits.map (applyDecisionLoop size maxTxnBytes l₁)).filter
        (fun l' => decide (l'.current ≤ T)) = [] := by
      refine filter_eq_nil_iff.2 fun l' hl' => ?_
      obtain ⟨p, -, rfl⟩ := mem_map.1 hl'
      have := (applyDecisionLoop_head size maxTxnBytes p l₁).2.1
      simp only [decide_eq_true_eq]
      omega
    simp [hnil]

lemma hist_loop_end {l' : DecisionLoop} (h : Hist .commitTs (loopStore l) past)
    (hs : l'.store = l.store) (hc : l'.current = l.current) (ht : l'.through ≤ l.current) {f : ℕ → DecisionLoop}
    (hf : ∀ T, (f T).store = l.store) :
    Hist .commitTs (loopStore l') fun T k => if T < l.current then past T k else (f T).store.view k := by
  have h' : Hist .commitTs (loopStore l') past := by
    refine h.congr_store ?_ ?_ ?_ ?_ hc ?_ ht
    all_goals
      unfold loopStore
      rw [hs]
    rfl
  refine h'.congr_past fun T hT k => ?_
  by_cases hlt : T < l.current
  · exact .inl (stands_of_eq (if_pos hlt))
  · refine .inr ⟨le_antisymm hT (hc.le.trans (not_lt.1 hlt)), ?_⟩
    rw [if_neg hlt, hf T, ← hs]
    rfl

lemma loopAt_store {T : ℕ} {views : List DecisionView}
    (h : ∀ p ∈ views.inits, (applyDecisionLoop size maxTxnBytes l p).store = l.store) :
    (loopAt size maxTxnBytes T l views).store = l.store := by
  unfold loopAt
  cases hlast : ((views.inits.map (applyDecisionLoop size maxTxnBytes l)).filter
      fun l' => decide (l'.current ≤ T)).getLast? with
  | none => rfl
  | some l' =>
    obtain ⟨p, hp, rfl⟩ := mem_map.1 (mem_filter.1 (mem_of_getLast? hlast)).1
    exact h p hp

/-- **The loop** keeps the history: what a key held at `T` is what the loop held when it stood there. -/
theorem hist_loop (views : List DecisionView) {l : DecisionLoop}
    (h : Hist .commitTs (loopStore l) past) :
    Hist .commitTs (loopStore (applyDecisionLoop size maxTxnBytes l views)) fun T k =>
      if T < l.current then past T k else (loopAt size maxTxnBytes T l views).store.view k := by
  induction views generalizing l past with
  | nil =>
    refine hist_loop_end h rfl rfl h.cursor fun T => loopAt_store fun p hp => ?_
    obtain rfl : p = [] := by simpa using hp
    rfl
  | cons view views ih =>
    -- the loop goes on from `l₁`, which has the tables of `l` or one decision more
    have hgo : ∀ (l₁ : DecisionLoop) (past₁ : ℕ → Bytes → KeyView), Hist .commitTs (loopStore l₁) past₁ →
        l.current ≤ l₁.current →
        (∀ T k, T < l₁.current → past₁ T k = if T < l.current then past T k else l.store.view k) →
        (∀ p, applyDecisionLoop size maxTxnBytes l (view :: p) =
          applyDecisionLoop size maxTxnBytes l₁ p) →
        Hist .commitTs (loopStore (applyDecisionLoop size maxTxnBytes l (view :: views))) fun T k =>
          if T < l.current then past T k else (loopAt size maxTxnBytes T l (view :: views)).store.view k := by
      intro l₁ past₁ h₁ hle hpast hnext
      rw [hnext views]
      refine (ih h₁).congr_past fun T _ k => .inl (stands_of_eq ?_)
      by_cases hT : T < l.current
      · have hT₁ : T < l₁.current := by omega
        rw [if_pos hT, if_pos hT₁, hpast T k hT₁, if_pos hT]
      · rw [if_neg hT, loopAt_cons views hnext (not_lt.1 hT)]
        by_cases hT₁ : T < l₁.current
        · rw [if_neg (not_le.2 hT₁), if_pos hT₁, hpast T k hT₁, if_neg hT]
        · rw [if_pos (not_lt.1 hT₁), if_neg hT₁]
    -- the loop stops in front of the decision, whatever follows
    have hstop : ∀ l' : DecisionLoop, l'.store = l.store → l'.current = l.current → l'.through = l.through →
        (∀ p, applyDecisionLoop size maxTxnBytes l (view :: p) = l') →
        Hist .commitTs (loopStore (applyDecisionLoop size maxTxnBytes l (view :: views))) fun T k =>
          if T < l.current then past T k else (loopAt size maxTxnBytes T l (view :: views)).store.view k := by
      intro l' hs hc ht hnext
      rw [hnext views]
      refine hist_loop_end h hs hc (ht ▸ h.cursor) fun T => loopAt_store fun p hp => ?_
      rcases p with _ | ⟨v, p⟩
      · rfl
      obtain rfl : v = view := by
        obtain ⟨t, ht⟩ := (mem_inits _ _).1 hp
        exact (List.cons.inj ht).1
      rw [hnext p, hs]
    have hsame : ∀ T k, T < l.current → past T k = if T < l.current then past T k else l.store.view k :=
      fun T k hT => (if_pos hT).symm
    by_cases hskip : view.commitTs ≤ l.through
    · exact hgo l past h le_rfl hsame fun p => by simp [applyDecisionLoop, hskip]
    by_cases hprev : (l.previous.any fun p => decide (view.commitTs ≤ p)) = true
    · exact hstop l rfl rfl rfl fun p => by simp only [applyDecisionLoop, hskip, hprev, if_true, if_false]
    cases hstep : decisionStep l.store l.current view with
    | stop =>
      exact hstop { l with previous := some view.commitTs } rfl rfl rfl fun p => by
        simp only [applyDecisionLoop, hskip, hprev, hstep, if_false]; rfl
    | replayed =>
      -- a replay is below the current revision: its entry is in the changelog, or the guard saw it
      have hle : view.commitTs ≤ l.current := by
        unfold decisionStep at hstep
        split at hstep
        · next event hev => exact h.revisions (view.commitTs, event) (Table.mem_rows.2 hev)
        · split at hstep
          · assumption
          · cases hstep
      refine hgo ⟨l.store, l.current, view.commitTs, l.count + 1, some view.commitTs⟩ past ?_ le_rfl hsame
        fun p => by simp only [applyDecisionLoop, hskip, hprev, hstep, if_false]; rfl
      exact h.congr_store rfl rfl rfl rfl rfl rfl hle
    | applied =>
      have hlt := lt_of_decisionStep_applied hstep
      refine hgo _ _ (hist_applyDecision h hlt (l.count + 1) (some view.commitTs)) hlt.le ?_
        fun p => by simp only [applyDecisionLoop, hskip, hprev, hstep, if_false]; rfl
      intro T k hT
      show extend past l.current l.store.view view.commitTs _ T k = _
      have hT' : T < view.commitTs := hT
      simp only [extend, hT', if_true]

end

/-! ### Steps and runs -/

/-- A step keeps the history and does not lower the current revision. -/
def Advances (mode : RevisionMode) (past : ℕ → Bytes → KeyView) (s s' : Store) : Prop :=
  Hist mode s' (extendTo mode past s s') ∧ s.currentRevision mode ≤ s'.currentRevision mode

lemma Hist.stay {mode : RevisionMode} {s : Store} {past : ℕ → Bytes → KeyView} (h : Hist mode s past) :
    Advances mode past s s := by
  refine ⟨h.congr_past fun T hT k => ?_, le_rfl⟩
  rcases hT.eq_or_lt with rfl | hT
  · exact .inr ⟨rfl, by simp [extendTo, extend]⟩
  · exact .inl (stands_of_eq (if_pos hT))

variable {es : List KvEntry}

section

variable {size : CommitRecord → ℕ} {mode : RevisionMode} {s : Store} {past : ℕ → Bytes → KeyView}

variable {policy : RevisionPolicy}

lemma advances_guarded {α : Type} (h : Hist mode s past) {r : ℕ}
    (hp : policy = .logIndex → mode = .logIndex) (guard : Option (Except Error Unit)) (replayed : α)
    (write : Store → Store × α) (hw : ∀ s₁ : Store, s₁.RowsHaveMeta → ∃ s₂ changes t applied, Wrote s₁ s₂ r changes ∧
      (mode = .commitTs → Counted s₁ s₂ r changes) ∧ (write s₁).1 = s₂.writeChangelog ⟨r, changes, t⟩ applied) :
    Advances mode past s (settle s (match guard with
      | some (.ok ()) => .ok (s, replayed)
      | some (.error e) => .error e
      | none =>
        match s.acceptRevision mode r policy with
        | .error e => .error e
        | .ok s₁ => .ok (write s₁))).1 := by
  rcases guard with _ | (e | _)
  · cases hacc : s.acceptRevision mode r policy with
    | error e => exact h.stay
    | ok s₁ =>
      obtain ⟨hr, hs₁⟩ := acceptRevision_ok hp hacc
      have hrows : s₁.RowsHaveMeta := by
        rw [hs₁]
        exact h.rows
      obtain ⟨s₂, changes, t, applied, hwrote, hcount, heq⟩ := hw s₁ hrows
      have hcur : (s₂.writeChangelog ⟨r, changes, t⟩ applied).currentRevision mode = r := by
        rw [hwrote.frame, hs₁]
        rfl
      simp only [settle, heq]
      exact ⟨h.accepted hp hacc hwrote hcount t applied, by omega⟩
  · exact h.stay
  · exact h.stay

lemma advances_put (h : Hist mode s past) (key value : Bytes) (leaseId : Option ℤ) (r : ℕ) (applied : AppliedLogId)
    (hp : policy = .logIndex → mode = .logIndex) :
    Advances mode past s (settle s (s.putAtKey mode key value leaseId r applied policy)).1 :=
  advances_guarded h hp _ _ _ fun s₁ hs =>
    ⟨_, _, _, _, wrote_put hs key value (leaseId.getD 0) r, fun _ => counted_put s₁ key value _ r, rfl⟩

lemma advances_delete (h : Hist mode s past) (key : Bytes) (r : ℕ) (applied : AppliedLogId)
    (hp : policy = .logIndex → mode = .logIndex) :
    Advances mode past s (settle s (s.deleteAtKey mode key r applied policy)).1 :=
  advances_guarded h hp _ _ _ fun s₁ hs =>
    ⟨_, _, _, _, wrote_delete hs key r, fun _ => counted_delete s₁ key r, rfl⟩

lemma advances_deleteRange (h : Hist mode s past) (start stop : Bytes) (r : ℕ) (applied : AppliedLogId)
    (hp : policy = .logIndex → mode = .logIndex) :
    Advances mode past s (settle s (s.deleteRangeAtKey mode start stop r applied policy)).1 :=
  advances_guarded h hp _ _ _ fun s₁ hs =>
    ⟨_, _, _, _, wrote_deleteKeys hs _ r, fun _ => counted_deleteKeys s₁ _ r, rfl⟩

lemma advances_txn (h : Hist .logIndex s past) (compares : List TxnCompare) (successOps failureOps : List TxnOp)
    (r : ℕ) (applied : AppliedLogId) :
    Advances .logIndex past s
      (settle s (s.executeTxnAtRevision .logIndex compares successOps failureOps r applied)).1 := by
  have hw := advances_guarded h (fun _ : RevisionPolicy.logIndex = .logIndex => rfl)
    (if s.changelog.has r then some (.ok ()) else none)
    (⟨false, r, []⟩ : TxnResult)
    (fun s₁ =>
      let succeeded := s₁.evaluateCompares compares
      let out := s₁.executeOps r (if succeeded then successOps else failureOps)
      (out.1.writeChangelog ⟨r, out.2.2, .txn⟩ applied, ⟨succeeded, r, out.2.1⟩))
    fun _ hs => ⟨_, _, _, _, wrote_ops hs _ r, fun hmode => (by cases hmode), rfl⟩
  unfold executeTxnAtRevision
  cases hc : s.changelog.has r
  all_goals
    rw [hc] at hw
    exact hw

lemma advances_setLastApplied (h : Hist mode s past) (applied : AppliedLogId)
    (ho : ∀ a ∈ s.lastApplied, a.index < applied.index) : Advances mode past s (s.setLastApplied mode applied) := by
  have hcur : s.currentRevision mode ≤ (s.setLastApplied mode applied).currentRevision mode := by
    cases mode with
    | commitTs => simp [setLastApplied, noteLogIndexRevision, currentRevision]
    | logIndex =>
      simp only [setLastApplied, noteLogIndexRevision, currentRevision]
      cases hrow : s.currentRevisionRow with
      | some revision =>
        by_cases hlt : revision < applied.index
        · simp [hlt, hlt.le]
        · simp [hlt]
      | none =>
        cases ha : s.lastApplied with
        | none => simp
        | some a => simpa using (ho a ha).le
  have hfields : ∀ t : Store, t = s.setLastApplied mode applied → t.kv = s.kv ∧ t.kvMeta = s.kvMeta ∧
      t.changelog = s.changelog ∧ t.compactedRevision = s.compactedRevision ∧
      t.importHistoryFloors = s.importHistoryFloors ∧ t.decisionApplied = s.decisionApplied := by
    rintro t rfl
    unfold setLastApplied noteLogIndexRevision
    split <;> exact ⟨rfl, rfl, rfl, rfl, rfl, rfl⟩
  obtain ⟨hkv, hm, hc, hlo, hf, hd⟩ := hfields _ rfl
  exact ⟨h.tick hkv hm hc hlo hcur hf hd, hcur⟩

lemma advances_compact (h : Hist mode s past) (revision : ℕ) {applied : AppliedLogId}
    (ho : ∀ a ∈ s.lastApplied, a.index < applied.index) :
    Advances mode past s (s.applyCompact mode revision applied).1 := by
  unfold applyCompact
  dsimp only
  split
  · exact h.stay
  next hne =>
  rw [not_or, not_le] at hne
  -- the rows are dropped, and then the entry is recorded
  have hcut := h.compact (compacting_filter s _) hne.2.le (Nat.le_succ _)
  obtain ⟨hadv, hcur⟩ := advances_setLastApplied hcut applied ho
  refine ⟨hadv.congr_past fun T _ k => .inl ?_, hcur⟩
  exact stands_extend (fun k => (compacting_filter s _).stands h.rows k) T k

lemma finishDecisions_spec {l : Store.DecisionLoop} (r : ℕ) (applied : AppliedLogId)
    (hrow : l.store.currentRevisionRow = s.currentRevisionRow) (hd : l.store.decisionApplied = s.decisionApplied)
    (hcur : s.currentRevision .commitTs ≤ l.current) (hth : l.through ≤ l.current)
    (hle : s.lastAppliedDecisionTs ≤ l.through) :
    let s' := finishDecisions .commitTs s r applied l
    s'.kv = l.store.kv ∧ s'.kvMeta = l.store.kvMeta ∧ s'.changelog = l.store.changelog ∧
      s'.compactedRevision = l.store.compactedRevision ∧ s'.importHistoryFloors = l.store.importHistoryFloors ∧
      s'.currentRevision .commitTs = l.current ∧ s'.lastAppliedDecisionTs = l.through := by
  obtain ⟨cursor, row, heq, hcursor, hrev⟩ := finishDecisions_eq r applied hd hle
  have hnow : l.store.currentRevision .commitTs = s.currentRevision .commitTs := by simp [currentRevision, hrow]
  rw [heq] at hrev ⊢
  exact ⟨rfl, rfl, rfl, rfl, rfl, (hrev rfl).trans (by omega), hcursor⟩

/-- The past after the steps `es`, by where the store stood. -/
def pastAfter (size : CommitRecord → ℕ) (mode : RevisionMode) (past : ℕ → Bytes → KeyView) (s : Store)
    (es : List KvEntry) (T : ℕ) (k : Bytes) : KeyView :=
  if T < s.currentRevision mode then past T k else (stateAt size mode T s es).view k

lemma hist_of_advances {e : KvEntry} (hcuts : e.cuts = [])
    (h : Advances mode past s (kvStep size mode s e).1) :
    Hist mode (kvStep size mode s e).1 (pastAfter size mode past s [e]) ∧
      s.currentRevision mode ≤ (kvStep size mode s e).1.currentRevision mode := by
  refine ⟨h.1.congr_past fun T _ k => .inl (stands_of_eq ?_), h.2⟩
  have hwithin : within size mode T s e = s := by simp [within, hcuts]
  simp only [pastAfter, stateAt, hwithin, extendTo, extend]
  by_cases hT : T < s.currentRevision mode
  · rw [if_pos hT, if_pos hT]
  rw [if_neg hT, if_neg hT]
  by_cases hT' : T < (kvStep size mode s e).1.currentRevision mode
  · rw [if_pos hT', if_neg (not_le.2 hT')]
  · rw [if_neg hT', if_pos (not_lt.1 hT')]

lemma hist_decisions (h : Hist .commitTs s past) (applied : AppliedLogId) (views : List DecisionView)
    (maxTxnBytes : ℕ) :
    let e : KvEntry := ⟨applied, .decisions views maxTxnBytes⟩
    Hist .commitTs (kvStep size .commitTs s e).1 (pastAfter size .commitTs past s [e]) ∧
      s.currentRevision .commitTs ≤ (kvStep size .commitTs s e).1.currentRevision .commitTs := by
  intro e
  set l : Store.DecisionLoop := ⟨s, s.currentRevision .commitTs, s.lastAppliedDecisionTs, 0, none⟩
  -- the batch `p` ends in `final p`, whose tables and revision are those of the loop over `p`
  let loop := applyDecisionLoop size maxTxnBytes l
  let final := fun p => finishDecisions .commitTs s applied.index applied (loop p)
  have h₀ : Hist .commitTs (loopStore l) past := h.congr_store rfl rfl rfl rfl rfl rfl h.cursor
  have hhead := fun p => applyDecisionLoop_head size maxTxnBytes p l
  have hspec := fun p => finishDecisions_spec (s := s) applied.index applied (hhead p).1.revision
    (congrArg decisionApplied (rest_applyDecisionLoop size maxTxnBytes p l) : _) (hhead p).2.1
    (hist_loop p h₀).cursor (hhead p).2.2
  have hstep : (kvStep size .commitTs s e).1 = final views := rfl
  have hfinalView : ∀ p, (final p).view = (loop p).store.view := fun p => view_congr (hspec p).1 (hspec p).2.1
  have hfinalCur : ∀ p, (final p).currentRevision .commitTs = (loop p).current := fun p => (hspec p).2.2.2.2.2.1
  have hcur : s.currentRevision .commitTs ≤ (final views).currentRevision .commitTs := by
    rw [hfinalCur]
    exact (hhead views).2.1
  -- the prefix at which the batch is cut is that of the loop
  have hwithin : ∀ T, s.currentRevision .commitTs ≤ T →
      (within size .commitTs T s e).view = (loopAt size maxTxnBytes T l views).store.view := by
    intro T hT
    have hcuts : (e.cuts.map fun c => (kvStep size .commitTs s c).1) = views.inits.map final := by
      simp only [e, KvEntry.cuts, map_map]
      rfl
    have hfilter : (views.inits.map final).filter (fun s' => decide (s'.currentRevision .commitTs ≤ T)) =
        (views.inits.filter fun p => decide ((loop p).current ≤ T)).map final := by
      rw [filter_map]
      congr 1
      exact filter_congr fun p _ => by simp [hfinalCur]
    have hfilter' : (views.inits.map loop).filter (fun l' => decide (l'.current ≤ T)) =
        (views.inits.filter fun p => decide ((loop p).current ≤ T)).map loop := by
      rw [filter_map]
      rfl
    unfold within loopAt
    rw [hcuts, hfilter, hfilter', getLast?_map, getLast?_map]
    cases (views.inits.filter fun p => decide ((loop p).current ≤ T)).getLast? with
    | none => rfl
    | some p => exact hfinalView p
  refine ⟨?_, hcur⟩
  have hend := @hist_loop size maxTxnBytes past views l h₀
  have hfinal : Hist .commitTs (final views) _ := hend.congr_store (hspec views).1 (hspec views).2.1
    (hspec views).2.2.1 (hspec views).2.2.2.1 (hfinalCur views) (hspec views).2.2.2.2.1
    ((hspec views).2.2.2.2.2.2.le.trans hend.cursor)
  rw [hstep]
  refine hfinal.congr_past fun T hT k => ?_
  simp only [pastAfter, stateAt, hstep]
  by_cases hlt : T < s.currentRevision .commitTs
  · exact .inl (stands_of_eq (by rw [if_pos hlt, if_pos hlt]))
  rcases hT.eq_or_lt with rfl | hT
  · exact .inr ⟨rfl, by rw [if_neg hlt, if_pos le_rfl]⟩
  · refine .inl (stands_of_eq ?_)
    rw [if_neg hlt, if_neg hlt, if_neg (not_le.2 hT), hwithin T (not_lt.1 hlt)]

theorem hist_step (h : Hist mode s past) {e : KvEntry} (ho : InLogOrder mode s e) :
    Hist mode (kvStep size mode s e).1 (pastAfter size mode past s [e]) ∧
      s.currentRevision mode ≤ (kvStep size mode s e).1.currentRevision mode := by
  obtain ⟨applied, op⟩ := e
  obtain ⟨hidx, hmode⟩ := ho
  have hv2 : RevisionPolicy.commitTs = .logIndex → mode = .logIndex := fun hne => by cases hne
  cases op with
  | put key value leaseId =>
    obtain rfl := hmode .logIndex rfl
    exact hist_of_advances rfl (advances_put h key value leaseId _ applied fun _ => rfl)
  | delete key =>
    obtain rfl := hmode .logIndex rfl
    exact hist_of_advances rfl (advances_delete h key _ applied fun _ => rfl)
  | deleteRange start stop =>
    obtain rfl := hmode .logIndex rfl
    exact hist_of_advances rfl (advances_deleteRange h start stop _ applied fun _ => rfl)
  | txn compares successOps failureOps =>
    obtain rfl := hmode .logIndex rfl
    exact hist_of_advances rfl (advances_txn h compares successOps failureOps _ applied)
  | putV2 key value leaseId commitTs =>
    refine hist_of_advances rfl ?_
    show Advances mode past s (settle s (s.putAtCommitTs mode key value leaseId commitTs applied)).1
    unfold putAtCommitTs
    split
    · exact h.stay
    · exact advances_put h key value leaseId commitTs applied hv2
  | deleteV2 key commitTs =>
    refine hist_of_advances rfl ?_
    show Advances mode past s (settle s (s.deleteAtCommitTs mode key commitTs applied)).1
    unfold deleteAtCommitTs
    split
    · exact h.stay
    · exact advances_delete h key commitTs applied hv2
  | deleteRangeV2 start stop commitTs =>
    refine hist_of_advances rfl ?_
    show Advances mode past s (settle s (s.deleteRangeAtCommitTs mode start stop commitTs applied)).1
    unfold deleteRangeAtCommitTs
    split
    · exact h.stay
    · exact advances_deleteRange h start stop commitTs applied hv2
  | decisions views maxTxnBytes =>
    obtain rfl := hmode .commitTs rfl
    exact hist_decisions h applied views maxTxnBytes
  | compact revision => exact hist_of_advances rfl (advances_compact h revision hidx)
  | noRows => exact hist_of_advances rfl (advances_setLastApplied h applied hidx)

/-- **Runs** keep the history: what the changelog tells of `T` is what the store held when it stood there. -/
theorem hist_run (h : Hist mode s past) (ho : Along (kvStep size mode) (InLogOrder mode) s es) :
    Hist mode (exec (kvStep size mode) s es) (pastAfter size mode past s es) := by
  induction es generalizing s past with
  | nil =>
    refine h.congr_past fun T hT k => ?_
    rcases hT.eq_or_lt with rfl | hT
    · exact .inr ⟨rfl, if_neg (lt_irrefl _)⟩
    · exact .inl (stands_of_eq (if_pos hT))
  | cons e es ih =>
    obtain ⟨h₁, hle⟩ := @hist_step size mode s past h e ho.1
    refine (ih h₁ ho.2).congr_past fun T _ k => .inl (stands_of_eq ?_)
    -- below the revision after the first step its history counts, and from there on that of the rest
    simp only [pastAfter, stateAt]
    by_cases hT : (kvStep size mode s e).1.currentRevision mode ≤ T
    · rw [if_pos hT, if_neg (not_lt.2 hT), if_neg (not_lt.2 (hle.trans hT))]
    · simp only [if_neg hT, if_pos (not_le.1 hT)]

lemma stateAt_end (h : Hist mode s past) (ho : Along (kvStep size mode) (InLogOrder mode) s es) :
    s.currentRevision mode ≤ (exec (kvStep size mode) s es).currentRevision mode ∧
      ∀ T, (exec (kvStep size mode) s es).currentRevision mode ≤ T →
        stateAt size mode T s es = exec (kvStep size mode) s es := by
  induction es generalizing s past with
  | nil => exact ⟨le_rfl, fun _ _ => rfl⟩
  | cons e es ih =>
    obtain ⟨h₁, hle⟩ := @hist_step size mode s past h e ho.1
    obtain ⟨hle', hend⟩ := ih h₁ ho.2
    exact ⟨hle.trans hle', fun T hT => (if_pos (hle'.trans hT)).trans (hend T hT)⟩

end

lemma hist_exec {size : CommitRecord → ℕ} {mode : RevisionMode}
    (ho : Along (kvStep size mode) (InLogOrder mode) Store.empty es) :
    Hist mode (exec (kvStep size mode) Store.empty es) fun T => (stateAt size mode T Store.empty es).view := by
  refine (hist_run (hist_empty mode) ho).congr_past fun T _ k => .inl (stands_of_eq ?_)
  -- the empty store stands at `0`, so every revision is one of the run
  have hcur : Store.empty.currentRevision mode = 0 := by cases mode <;> rfl
  simp [pastAfter, hcur]

end Coord.Storage
