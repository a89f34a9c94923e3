import Coord.Raft.Footprint
import Coord.Storage.RegionTiling

/-!
# The Region table along the log

Two kinds of entries write the table of the system Region: the operations on it and the cutover of a prepared split or
merge.  Whatever the log carries, the table it leaves tiles the key space.  The epoch of a Region falls in one way
only: a batch removes it and adds it again, which no rule on epochs covers.
-/

namespace Coord.Storage.Store

def storedRegionTable (s : Store) : RegionTable := s.regionTableRow.getD .default

def region (s : Store) (regionId : RegionId) : Option RegionMeta := s.storedRegionTable.get regionId

/-- A table that is read tiles the key space, and one that has not been seeded is empty. -/
lemma regionTable_ok {s : Store} {t : RegionTable} (h : s.regionTable = .ok t) :
    t = s.storedRegionTable ∧ (t.version = 0 → t.regions = []) := by
  unfold regionTable at h
  unfold storedRegionTable
  split at h
  · next hrow =>
    cases h
    exact ⟨by rw [hrow]; rfl, fun _ => rfl⟩
  next table hrow =>
  split at h
  · cases h
  next hvalid =>
  cases h
  refine ⟨by rw [hrow]; rfl, fun hzero => ?_⟩
  simp only [RegionTable.validate, hzero, if_true] at hvalid
  by_contra hne
  simp [hne] at hvalid

lemma cutoverPhase_cases (t : RegionTable) (plan : SplitMergePlan) :
    (cutoverPhase t plan).1 = none ∨ ∃ t' changed, t.apply plan.changes = .ok (t', changed) ∧
      cutoverPhase t plan = (some t', .applied t'.version) := by
  unfold cutoverPhase
  split
  · exact .inl rfl
  · cases happly : t.apply plan.changes with
    | error e => exact .inl rfl
    | ok r => exact .inr ⟨r.1, r.2, rfl, rfl⟩

variable {s s' : Store}

/-- What a cutover leaves: the store as it was but for the phase, or the next table and the phase that says so. -/
lemma cutover_ok {opId : ℕ} (h : s.cutover opId = .ok s') :
    s'.regionTableRow = s.regionTableRow ∨ ∃ intent t t' changed, s.pdIntents.get opId = some intent ∧
      s.regionTable = .ok t ∧ t.apply intent.plan.changes = .ok (t', changed) ∧ s'.regionTableRow = some t' ∧
      s'.pdIntents.get opId = some { intent with phase := .applied t'.version } := by
  unfold cutover at h
  split at h
  · cases h
    exact .inl rfl
  next intent hintent =>
  split at h
  · cases h
  next t ht =>
  obtain ⟨hget, -⟩ := Option.filter_eq_some_iff.1 hintent
  rcases cutoverPhase_cases t intent.plan with hnone | ⟨t', changed, happly, hphase⟩
  · refine .inl ?_
    generalize cutoverPhase t intent.plan = p at h hnone
    obtain ⟨table, phase⟩ := p
    subst hnone
    cases h
    rfl
  · rw [hphase] at h
    cases h
    exact .inr ⟨intent, t, t', changed, hget, ht, happly, rfl, Lib.Table.get_insert_self _ _ _⟩

lemma regionTableRow_writePdOp {revision : ℕ} {op : PdOp} (h : s.writePdOp revision op = .ok s')
    (hop : ∀ opId, op ≠ .cutover opId) : s'.regionTableRow = s.regionTableRow := by
  cases op with
  | cutover opId => exact absurd rfl (hop opId)
  | enqueue op requester proposedAtUnix =>
    cases h
    split <;> rfl
  | claim opId nodeId claimedAtUnix =>
    cases h
    simp only [updatePdOp]
    split <;> rfl
  | complete opId nodeId success error =>
    cases h
    simp only [updatePdOp]
    split <;> rfl
  | requeue opId =>
    cases h
    simp only [updatePdOp]
    split <;> rfl
  | recordIntent intent =>
    cases h
    split <;> rfl
  | clearIntent opId =>
    cases h
    rfl

lemma applyPdOp_ok {mode : RevisionMode} {op : PdOp} {revision : ℕ} {applied : AppliedLogId}
    {o : ApplyOutcome} (h : s.applyPdOp mode op revision applied = .ok (s', o)) :
    s' = s ∨ ∃ s₁, (s.noteLogIndexRevision mode revision).writePdOp revision op = .ok s₁ ∧
      s'.regionTableRow = s₁.regionTableRow ∧ s'.pdIntents = s₁.pdIntents := by
  unfold applyPdOp at h
  split at h
  · cases h
    exact .inl rfl
  · split at h
    · cases h
    · next s₁ hwrite =>
      cases h
      exact .inr ⟨s₁, hwrite, by simp [trimTerminal, writeChangelog], by simp [trimTerminal, writeChangelog]⟩

end Coord.Storage.Store

namespace Coord.Raft

open Coord.Lib Coord.Storage Store RegionTable

/-- The batch an entry brings to the table: of an operation on it, or of the intent that is cut over. -/
def tableChanges (s : Store) (e : Entry) : List RegionChange :=
  match e.payload with
  | .normal (.regionMeta (.apply changes)) => changes
  | .normal (.pd (.cutover opId)) => ((s.pdIntents.get opId).map fun intent => intent.plan.changes).getD []
  | _ => []

/-- An entry leaves the table as it is, or it is a seed or a batch that the table takes: one of an operation, which is
then answered as applied, or one of an intent, whose phase is then applied. -/
theorem regionTableRow_applyEntry {cfg : Config} {nowMs : ℤ} {s s' : Store} {e : Entry} {r : Response}
    (h : applyEntry cfg nowMs s e = .ok (s', r)) :
    s'.regionTableRow = s.regionTableRow ∨ ∃ t t' changed, s.regionTable = .ok t ∧ s'.regionTableRow = some t' ∧
      ((∃ regions, t.init regions = .ok (t', changed)) ∨ t.apply (tableChanges s e) = .ok (t', changed)) ∧
      (r = .regionMeta (.applied t'.version) ∨ ∃ opId intent, e.payload = .normal (.pd (.cutover opId)) ∧
        s'.pdIntents.get opId = some intent ∧ intent.phase = .applied t'.version) := by
  rcases applyEntry_cases h with ⟨cmd, o, hp, rfl, ht⟩ | ⟨_, houter⟩
  · have hout := outside_executeCommand ht
    cases cmd with
    | regionMeta op =>
      obtain ⟨⟨t₁, o₁⟩, hop, he⟩ := map_eq_ok ht
      cases he
      unfold applyRegionMetaOp at hop
      split at hop
      · cases hop
      next table htable =>
      dsimp only at hop
      split at hop
      · next table' changed hrun =>
        cases hop
        cases changed with
        | false => exact .inl rfl
        | true =>
          refine .inr ⟨table, table', true, htable, rfl, ?_, .inl rfl⟩
          cases op with
          | init regions => exact .inl ⟨regions, hrun⟩
          | apply changes =>
            simp only [tableChanges, hp]
            exact .inr hrun
      · cases hop
        exact .inl rfl
    | pd op =>
      obtain ⟨⟨t₁, o₁⟩, hop, he⟩ := map_eq_ok ht
      cases he
      rcases Store.applyPdOp_ok hop with rfl | ⟨s₁, hwrite, htable, hintents'⟩
      · exact .inl rfl
      have hnote := @outer_noteLogIndexRevision cfg.mode s e.logId.index
      have hrow : (s.noteLogIndexRevision cfg.mode e.logId.index).regionTableRow = s.regionTableRow :=
        (congrArg regionTableRow hnote : _)
      have hintents : (s.noteLogIndexRevision cfg.mode e.logId.index).pdIntents = s.pdIntents :=
        (congrArg pdIntents hnote : _)
      by_cases hcut : ∃ opId, op = .cutover opId
      · obtain ⟨opId, rfl⟩ := hcut
        rcases Store.cutover_ok hwrite with hsame | ⟨intent, t, t', changed, hget, ht, happly, hrow', hphase⟩
        · exact .inl (htable.trans (hsame.trans hrow))
        rw [hintents] at hget
        refine .inr ⟨t, t', changed, ?_, htable.trans hrow', .inr ?_, .inr ⟨opId, _, hp, hintents' ▸ hphase, rfl⟩⟩
        · simpa only [regionTable, hrow] using ht
        · simp only [tableChanges, hp, hget]
          exact happly
      · exact .inl (htable.trans ((Store.regionTableRow_writePdOp hwrite fun opId h => hcut ⟨opId, h⟩).trans hrow))
    | _ => exact .inl (congrArg regionTableRow hout : _)
  · exact .inl (congrArg regionTableRow houter : _)

/-! ### Steps -/

/-- The batch of the entry lowers no epoch by removing a Region and adding it again. -/
def KeepsTableEpochs (s : Store) (e : Entry) : Prop := KeepsEpochs s.storedRegionTable.regions (tableChanges s e)

instance (s : Store) (e : Entry) : Decidable (KeepsTableEpochs s e) := inferInstanceAs (Decidable (KeepsEpochs _ _))

section

variable {cfg : Config} {nowMs : ℤ} {s s' : Store} {e : Entry} {r : Response}

lemma storedRegionTable_congr (h : s'.regionTableRow = s.regionTableRow) :
    s'.storedRegionTable = s.storedRegionTable := by
  rw [Store.storedRegionTable, h, Store.storedRegionTable]

lemma tiles_applyEntry (h : applyEntry cfg nowMs s e = .ok (s', r)) (hs : Tiles s.storedRegionTable.regions) :
    Tiles s'.storedRegionTable.regions := by
  rcases regionTableRow_applyEntry h with hsame | ⟨t, t', changed, ht, hrow, hop, -⟩
  · rwa [storedRegionTable_congr hsame]
  obtain ⟨rfl, -⟩ := Store.regionTable_ok ht
  have hstored : s'.storedRegionTable = t' := by rw [Store.storedRegionTable, hrow]; rfl
  rw [hstored]
  rcases hop with ⟨regions, hinit⟩ | happly
  · rcases init_ok hinit with ⟨rfl, -⟩ | ⟨-, -, hvalid⟩
    · exact hs
    · exact tiles_of_validate hvalid
  · rcases apply_ok happly with ⟨-, rfl, -⟩ | ⟨-, -, -, hvalid⟩
    · exact hs
    · have htiles := tiles_of_validate hvalid
      exact htiles

lemma epoch_le_applyEntry (h : applyEntry cfg nowMs s e = .ok (s', r)) (hs : Tiles s.storedRegionTable.regions)
    (hkeep : KeepsTableEpochs s e) : ∀ old ∈ s.storedRegionTable.regions, ∀ new ∈ s'.storedRegionTable.regions,
      old.regionId = new.regionId → old.epoch ≤ new.epoch := by
  have hself : ∀ old ∈ s.storedRegionTable.regions, ∀ new ∈ s.storedRegionTable.regions,
      old.regionId = new.regionId → old.epoch ≤ new.epoch := by
    intro old hold new hnew hid
    rw [hs.eq_of_id hold hnew hid]
    exact new.epoch.le_refl
  rcases regionTableRow_applyEntry h with hsame | ⟨t, t', changed, ht, hrow, hop, -⟩
  · rwa [storedRegionTable_congr hsame]
  obtain ⟨rfl, hempty⟩ := Store.regionTable_ok ht
  have hstored : s'.storedRegionTable = t' := by rw [Store.storedRegionTable, hrow]; rfl
  rw [hstored]
  rcases hop with ⟨regions, hinit⟩ | happly
  · rcases init_ok hinit with ⟨rfl, -⟩ | ⟨-, hzero, -⟩
    · exact hself
    · rw [hempty hzero]
      simp
  · exact apply_epoch_le hs hkeep happly

end

/-! ### Logs -/

section

variable {cfg : Config} {clock : ℕ → ℤ} {s : Store}

/-- **The epoch of a Region does not fall while the Region is in the table.** -/
lemma epoch_le_applyEntries {es : List Entry} {regionId : RegionId} {old new : RegionMeta}
    (hs : Tiles s.storedRegionTable.regions) (hkeep : AlongLog cfg clock KeepsTableEpochs s es)
    (hthere : AlongLog cfg clock (fun t _ => (t.region regionId).isSome = true) s es)
    (hold : s.region regionId = some old) (hnew : (applyEntries cfg clock s es).1.region regionId = some new) :
    old.epoch ≤ new.epoch := by
  induction es generalizing s old with
  | nil =>
    obtain rfl : old = new := Option.some.inj (hold.symm.trans hnew)
    exact old.epoch.le_refl
  | cons e es ih =>
    obtain ⟨hke, hkes⟩ := hkeep
    obtain ⟨-, hthere⟩ := hthere
    unfold applyEntries at hnew
    cases he : applyEntry cfg (clock e.logId.index) s e with
    | error err =>
      rw [he] at hnew
      obtain rfl : old = new := Option.some.inj (hold.symm.trans hnew)
      exact old.epoch.le_refl
    | ok p =>
      obtain ⟨s₁, r⟩ := p
      rw [he] at hkes hthere hnew
      dsimp only at hkes hthere hnew
      -- the Region is in the table after the entry: there is another entry, or the log ends here
      have hmid : ∃ mid, s₁.region regionId = some mid := by
        cases es with
        | nil => exact ⟨new, hnew⟩
        | cons e' es' => exact Option.isSome_iff_exists.1 hthere.1
      obtain ⟨mid, hmid⟩ := hmid
      have hid : ∀ {t : Store} {m : RegionMeta}, t.region regionId = some m →
          m ∈ t.storedRegionTable.regions ∧ m.regionId = regionId := by
        intro t m h
        have hid := List.find?_some h
        exact ⟨List.mem_of_find?_eq_some h, of_decide_eq_true hid⟩
      have hstep := epoch_le_applyEntry he hs hke old (hid hold).1 mid (hid hmid).1
        ((hid hold).2.trans (hid hmid).2.symm)
      exact RegionEpoch.le_trans hstep (ih (tiles_applyEntry he hs) hkes hthere hmid hnew)

/-- **The Region table along every log of the system Region**, in which no batch removes a Region and adds it again
with a lower epoch.  Whatever the table holds tiles the key space under unique ids, every key is routed to its one
Region, the epoch of a Region does not fall while it is there, and a table is changed only by an operation that is
answered as applied or a cutover whose intent is applied. -/
theorem regionTable_log (cfg : Config) (clock : ℕ → ℤ) (es : List Entry)
    (hkeep : AlongLog cfg clock KeepsTableEpochs Store.empty es) :
    (∀ t, t = (applyEntries cfg clock Store.empty es).1.storedRegionTable → Tiles t.regions ∧
      (t.regions ≠ [] → ∀ key, ∃ m ∈ t.regions, t.route key = some m ∧ m.containsKey key = true ∧
        ∀ m' ∈ t.regions, m'.containsKey key = true → m' = m)) ∧
    (∀ pre post s, es = pre ++ post → applyEntries cfg clock Store.empty pre = (s, none) →
      ∀ regionId old new, AlongLog cfg clock (fun t _ => (t.region regionId).isSome = true) s post →
        s.region regionId = some old → (applyEntries cfg clock s post).1.region regionId = some new →
        old.epoch ≤ new.epoch) ∧
    (∀ pre e post s s' r, es = pre ++ e :: post → applyEntries cfg clock Store.empty pre = (s, none) →
      applyEntry cfg (clock e.logId.index) s e = .ok (s', r) → s'.storedRegionTable ≠ s.storedRegionTable →
      (∃ version, r = .regionMeta (.applied version)) ∨ ∃ opId intent version,
        e.payload = .normal (.pd (.cutover opId)) ∧ s'.pdIntents.get opId = some intent ∧
          intent.phase = .applied version) := by
  have htiles : ∀ es, Tiles (applyEntries cfg clock Store.empty es).1.storedRegionTable.regions := fun es =>
    applyEntries_inv (fun s => Tiles s.storedRegionTable.regions)
      ⟨trivial, by simp [Store.storedRegionTable, Store.empty, RegionTable.default], List.nodup_nil,
        by simp [Store.storedRegionTable, Store.empty, RegionTable.default]⟩
      fun s e _ s' r h hs => tiles_applyEntry h hs
  refine ⟨?_, ?_, ?_⟩
  · rintro t rfl
    refine ⟨htiles es, fun hne key => ?_⟩
    obtain ⟨m, hm, hkey, huniq⟩ := (htiles es).existsUnique hne key
    exact ⟨m, hm, (htiles es).route hm hkey, hkey, huniq⟩
  · rintro pre post s rfl hpre regionId old new hthere hold hnew
    have hs : Tiles s.storedRegionTable.regions := by
      have := htiles pre
      rwa [hpre] at this
    exact epoch_le_applyEntries hs (hkeep.append hpre) hthere hold hnew
  · rintro pre e post s s' r - - he hne
    rcases regionTableRow_applyEntry he with hsame | ⟨-, t', -, -, -, -, hanswer⟩
    · exact absurd (storedRegionTable_congr hsame) hne
    · rcases hanswer with hr | ⟨opId, intent, hp, hget, hphase⟩
      · exact .inl ⟨_, hr⟩
      · exact .inr ⟨opId, intent, _, hp, hget, hphase⟩

end

/-- The Region `1` over the whole key space, at an epoch. -/
def wholeRegion (version : ℕ) : RegionMeta := ⟨1, [], [], ⟨1, version⟩, [], 0, 0⟩

def tableEntry (index : ℕ) (op : RegionMetaOp) : Entry := ⟨⟨1, 1, index⟩, .normal (.regionMeta op)⟩

def seededLog : List Entry := [tableEntry 1 (.init [wholeRegion 1]), tableEntry 2 (.apply [.update (wholeRegion 2)])]

/-- The Region is removed and added again in one batch: it is there before and after, and its epoch falls. -/
theorem regionTable_readd_fails :
    let s := (applyEntries plainConfig (fun _ => 0) Store.empty seededLog).1
    let readd := tableEntry 3 (.apply [.remove 1 ⟨1, 2⟩, .add (wholeRegion 1)])
    s.region 1 = some (wholeRegion 2) ∧
      (applyEntries plainConfig (fun _ => 0) s [readd]).1.region 1 = some (wholeRegion 1) ∧
      ¬ (wholeRegion 2).epoch ≤ (wholeRegion 1).epoch := by
  decide +kernel

/-- A seeded log whose last batch splits the Region. -/
theorem regionTable_log_split :
    let es := seededLog ++ [tableEntry 3 (.apply [.update ⟨1, [], [7], ⟨1, 3⟩, [], 0, 0⟩,
      .add ⟨2, [7], [], ⟨1, 3⟩, [], 0, 0⟩])]
    AlongLog plainConfig (fun _ => 0) KeepsTableEpochs Store.empty es ∧
      Tiles (applyEntries plainConfig (fun _ => 0) Store.empty es).1.storedRegionTable.regions :=
  ⟨by decide +kernel, ((regionTable_log plainConfig (fun _ => 0) _ (by decide +kernel)).1 _ rfl).1⟩

end Coord.Raft
