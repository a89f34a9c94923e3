import Coord.Raft.Footprint

/-!
# The timestamp oracle: the allocator and the caches of its clients

The system Region hands out batches of timestamps, each by an entry of its log; the client of a node caches a batch and
hands out one timestamp at a time.  Any number of tasks share a client: they skip, claim and refill under two locks, of
which the one of the refill is held across the round trip to the log.
-/

namespace Coord.Raft

open Coord.Lib Coord.Storage Store Function Nat

/-! ### The client -/

/-- The part `[next, endTs)` of a batch that has not been handed out. -/
structure CachedBatch where
  next : ℕ
  endTs : ℕ
  deriving DecidableEq

inductive TsoError where
  | notLeader
  | clusterUnavailable
  | internal
  | emptyBatch (startTs endTs : ℕ)
  | regressed (startTs next : ℕ)
  deriving DecidableEq

/-- The client of a node; `refill` is the task that holds the lock of the refill. -/
structure TsoClient where
  batchSize : ℕ
  cache : CachedBatch
  refill : Option ℕ
  wasLeader : Bool
  deriving DecidableEq

namespace TsoClient

def new (batchSize : ℕ) : TsoClient := ⟨max batchSize 1, ⟨0, 0⟩, none, false⟩

/-- Drop the timestamps up to `floor` (a saturating `u64`). -/
def skipToAbove (c : TsoClient) (floor : ℕ) : TsoClient :=
  if floor = 0 then c
  else if c.cache.next ≤ floor then
    { c with cache := { c.cache with next := min (min (floor + 1) (2 ^ 64 - 1)) c.cache.endTs } }
  else c

def refillThreshold (c : TsoClient) : ℕ := max ((c.batchSize + 7) / 8) 1

def needsRefill (c : TsoClient) : Bool := decide (c.cache.endTs - c.cache.next ≤ c.refillThreshold)

def claim (c : TsoClient) : Option (ℕ × TsoClient) :=
  if c.cache.endTs ≤ c.cache.next then none
  else some (c.cache.next, { c with cache := { c.cache with next := c.cache.next + 1 } })

def discardBatch (c : TsoClient) : TsoClient := { c with cache := { c.cache with next := c.cache.endTs } }

/-- A batch that is empty, or starts below what has been handed out, is refused. -/
def installBatch (c : TsoClient) (startTs endTs : ℕ) : Except TsoError TsoClient :=
  if endTs ≤ startTs then .error (.emptyBatch startTs endTs)
  else if startTs < c.cache.next then .error (.regressed startTs c.cache.next)
  else .ok { c with cache := ⟨startTs, endTs⟩ }

end TsoClient

/-! ### Tasks and the log -/

/-- Where a call of `get_ts_above` stands. -/
inductive TsoPoint where
  /-- before it asks whether the node leads -/
  | start
  /-- before it skips to the floor -/
  | loop
  /-- before it looks at what is left -/
  | check
  /-- waiting for the lock of the refill -/
  | waitRefill
  /-- holding the lock, with a proposal on its way -/
  | allocate
  /-- holding the lock, with the answer -/
  | install (startTs endTs : ℕ)
  /-- before it claims -/
  | claim
  | returned (result : Except TsoError ℕ)
  deriving DecidableEq

structure TsoTask where
  client : ℕ
  floor : ℕ
  point : TsoPoint
  deriving DecidableEq

/-- Timestamps `[startTs, endTs)` handed out above `floor`: by a client, or a whole batch by the `Allocate` call. -/
structure TsoIssue where
  client : Option ℕ
  startTs : ℕ
  endTs : ℕ
  floor : ℕ
  deriving DecidableEq

inductive TsoRequester where
  | task (id : ℕ)
  | rpc
  | nobody
  deriving DecidableEq

structure TsoSystem where
  /-- the store of the system Region -/
  store : Store
  /-- the highest log index it has applied -/
  lastIndex : ℕ
  clients : ℕ → TsoClient
  tasks : Table ℕ TsoTask
  issued : List TsoIssue

/-- What a task does between two points; a cancelled one is dropped where it stands. -/
inductive TsoTaskStep where
  | isLeader (leader : Bool)
  | skip
  | check
  | lockRefill
  | allocateFailed (error : TsoError) (retry : Bool)
  | install
  | claim
  | cancel
  deriving DecidableEq

inductive TsoAction where
  | call (task client floor : ℕ)
  | task (id : ℕ) (step : TsoTaskStep)
  | apply (nowMs : ℤ) (entry : Entry) (requester : TsoRequester)

namespace TsoSystem

def init (batchSize : ℕ → ℕ) : TsoSystem := ⟨Store.empty, 0, fun c => TsoClient.new (batchSize c), Table.empty, []⟩

/-- Change the client of a task and where the task stands. -/
def update (s : TsoSystem) (id : ℕ) (t : TsoTask) (client : TsoClient) (point : TsoPoint) : TsoSystem :=
  { s with clients := Function.update s.clients t.client client, tasks := s.tasks.insert id { t with point := point } }

/-- A task that holds the lock of the refill lets go of it. -/
def unlock (c : TsoClient) (id : ℕ) : TsoClient := if c.refill = some id then { c with refill := none } else c

/-- The system Region has applied an entry.  The answer goes to the proposer that waits for it, which is in the memory
of the process that proposed the entry: a re-applied entry is answered to nobody. -/
def deliver (s : TsoSystem) (entry : Entry) (answer : Response) : TsoRequester → TsoSystem
  | .task id =>
    match s.tasks.get id, answer with
    | some t, .tso startTs endTs =>
      if s.lastIndex < entry.logId.index ∧ t.point = .allocate ∧
          entry.payload = .normal (.tsoAllocate (s.clients t.client).batchSize) then
        s.update id t (s.clients t.client) (.install startTs endTs)
      else s
    | _, _ => s
  | .rpc =>
    match entry.payload, answer with
    | .normal (.tsoAllocate _), .tso startTs endTs =>
      if s.lastIndex < entry.logId.index then { s with issued := s.issued ++ [⟨none, startTs, endTs, 0⟩] } else s
    | _, _ => s
  | .nobody => s

def stepTask (s : TsoSystem) (id : ℕ) (t : TsoTask) : TsoTaskStep → TsoSystem
  | .isLeader leader =>
    let c := s.clients t.client
    if t.point ≠ .start then s
    else if leader then s.update id t { c with wasLeader := true } .loop
    else s.update id t (if c.wasLeader then { c.discardBatch with wasLeader := false } else c)
      (.returned (.error .notLeader))
  | .skip =>
    if t.point ≠ .loop then s else s.update id t ((s.clients t.client).skipToAbove t.floor) .check
  | .check =>
    let c := s.clients t.client
    if t.point ≠ .check then s
    else s.update id t c (if c.needsRefill then .waitRefill else .claim)
  | .lockRefill =>
    let c := s.clients t.client
    if t.point ≠ .waitRefill ∨ c.refill ≠ none then s
    -- another task may have refilled meanwhile
    else if c.needsRefill then s.update id t { c with refill := some id } .allocate
    else s.update id t c .loop
  | .allocateFailed error retry =>
    let c := s.clients t.client
    if t.point ≠ .allocate then s
    else if error = .notLeader then
      s.update id t { unlock c.discardBatch id with wasLeader := false } (.returned (.error error))
    else if error = .clusterUnavailable ∧ retry then s
    else s.update id t (unlock c id) (.returned (.error error))
  | .install =>
    let c := s.clients t.client
    match t.point with
    | .install startTs endTs =>
      match c.installBatch startTs endTs with
      | .ok c => s.update id t (unlock c id) .loop
      | .error e => s.update id t (unlock c id) (.returned (.error e))
    | _ => s
  | .claim =>
    if t.point ≠ .claim then s
    else match (s.clients t.client).claim with
    | none => s.update id t (s.clients t.client) .loop
    | some (ts, c) =>
      if t.floor < ts then
        { s.update id t c (.returned (.ok ts)) with issued := s.issued ++ [⟨some t.client, ts, ts + 1, t.floor⟩] }
      else s.update id t c .loop
  | .cancel =>
    { s with
      clients := Function.update s.clients t.client (unlock (s.clients t.client) id)
      tasks := s.tasks.erase id }

/-- One step: a call, a task between two points where it lets others run, or an entry of the log. -/
def step (cfg : Config) (s : TsoSystem) : TsoAction → TsoSystem × Unit
  | .call id client floor =>
    (if s.tasks.has id then s else { s with tasks := s.tasks.insert id ⟨client, floor, .start⟩ }, ())
  | .task id step =>
    match s.tasks.get id with
    | some t => (s.stepTask id t step, ())
    | none => (s, ())
  | .apply nowMs entry requester =>
    match applyEntry cfg nowMs s.store entry with
    | .error _ => (s, ())
    | .ok (store, answer) =>
      ({ deliver s entry answer requester with store := store, lastIndex := max s.lastIndex entry.logId.index }, ())

end TsoSystem

/-! ### The allocator -/

section

variable {cfg : Config} {nowMs : ℤ} {s s' : Store} {e : Entry} {r : Response}

/-- A batch that has not been handed out before: it starts at the high water and moves it to its end. -/
structure FreshBatch (s s' : Store) (index endTs : ℕ) : Prop where
  highWater : s'.tsoHighWater = endTs
  above : s.tsoHighWater < endTs
  bounded : endTs < 2 ^ 64
  last : s'.tsoLastBatch = some ⟨index, s.tsoHighWater, endTs⟩

/-- What an allocation does and answers: it takes a fresh batch; or it is the entry that took the last batch, and gives
it again; or it gives nothing. -/
lemma applyTsoAllocate_ok {mode : RevisionMode} {batchSize revision : ℕ} {applied : AppliedLogId}
    {o : TsoBatchOutcome} (h : s.applyTsoAllocate mode batchSize revision applied = .ok (s', o)) :
    FreshBatch s s' revision o.endTs ∧ o.startTs = s.tsoHighWater ∨
      s' = s ∧ ((∃ batch, s.tsoLastBatch = some batch ∧ batch.revision = revision ∧ o.startTs = batch.startTs ∧
        o.endTs = batch.endTs) ∨ o.startTs = s.tsoHighWater ∧ o.endTs = s.tsoHighWater) := by
  unfold applyTsoAllocate at h
  split at h
  · split at h
    · next batch hbatch =>
      cases h
      obtain ⟨hlast, hrev⟩ := Option.filter_eq_some_iff.1 hbatch
      exact .inr ⟨rfl, .inl ⟨batch, hlast, of_decide_eq_true hrev, rfl, rfl⟩⟩
    · cases h
      exact .inr ⟨rfl, .inr ⟨rfl, rfl⟩⟩
  · have hnote : (s.noteLogIndexRevision mode revision).tsoHighWater = s.tsoHighWater :=
      (congrArg tsoHighWater (@outer_noteLogIndexRevision mode s revision) : _)
    dsimp only at h
    rw [hnote] at h
    split at h
    · cases h
    · next hlt =>
      cases h
      exact .inl ⟨⟨rfl, by dsimp only; omega, not_le.1 hlt, rfl⟩, rfl⟩

lemma tsoAllocate_applyEntry {batchSize : ℕ} (hp : e.payload = .normal (.tsoAllocate batchSize))
    (h : applyEntry cfg nowMs s e = .ok (s', r)) :
    ∃ o, s.applyTsoAllocate cfg.mode batchSize e.logId.index e.logId = .ok (s', o) ∧ r = .tso o.startTs o.endTs := by
  unfold applyEntry at h
  rw [hp] at h
  obtain ⟨⟨t, o⟩, ht, he⟩ := map_eq_ok h
  obtain ⟨⟨t₁, o₁⟩, hop, he₁⟩ := map_eq_ok ht
  cases he₁
  cases he
  exact ⟨o₁, hop, rfl⟩

/-- **What an entry does to the timestamps**: nothing, or it takes a fresh batch. -/
lemma tso_applyEntry (h : applyEntry cfg nowMs s e = .ok (s', r)) :
    s'.tsoHighWaterRow = s.tsoHighWaterRow ∧ s'.tsoLastBatch = s.tsoLastBatch ∨
      ∃ endTs, FreshBatch s s' e.logId.index endTs := by
  by_cases htso : ∃ batchSize, e.payload = .normal (.tsoAllocate batchSize)
  · obtain ⟨batchSize, hp⟩ := htso
    obtain ⟨o, hop, -⟩ := tsoAllocate_applyEntry hp h
    rcases applyTsoAllocate_ok hop with ⟨hfresh, -⟩ | ⟨rfl, -⟩
    · exact .inr ⟨_, hfresh⟩
    · exact .inl ⟨rfl, rfl⟩
  · refine .inl ?_
    rcases applyEntry_cases h with ⟨cmd, o, hp, -, ht⟩ | ⟨_, houter⟩
    · have hout := outside_executeCommand ht
      cases cmd with
      | tsoAllocate batchSize => exact absurd ⟨batchSize, hp⟩ htso
      | _ => exact ⟨(congrArg tsoHighWaterRow hout : _), (congrArg tsoLastBatch hout : _)⟩
    · exact ⟨(congrArg tsoHighWaterRow houter : _), (congrArg tsoLastBatch houter : _)⟩

end

/-! ### Owners -/

def TsoIssue.Has (i : TsoIssue) (ts : ℕ) : Prop := i.startTs ≤ ts ∧ ts < i.endTs

/-- Every timestamp in a cache, or on its way to one, belongs to that client alone.  What has been handed out lies below
what its client hands out next. -/
structure TsoInv (s : TsoSystem) (owner : ℕ → Option ℕ) : Prop where
  highWater : 1 ≤ s.store.tsoHighWater ∧ s.store.tsoHighWater < 2 ^ 64
  last : ∀ batch, s.store.tsoLastBatch = some batch → batch.revision ≤ s.lastIndex
  owned : ∀ ts c, owner ts = some c → ts < s.store.tsoHighWater
  ordered : ∀ c, (s.clients c).cache.next ≤ (s.clients c).cache.endTs ∧ (s.clients c).cache.endTs < 2 ^ 64
  cache : ∀ c ts, (s.clients c).cache.next ≤ ts → ts < (s.clients c).cache.endTs → owner ts = some c
  pending : ∀ id t startTs endTs, s.tasks.get id = some t → t.point = .install startTs endTs →
    ∀ ts, startTs ≤ ts → ts < endTs → owner ts = some t.client
  above : ∀ i ∈ s.issued, i.floor < i.startTs
  issued : ∀ i ∈ s.issued, ∀ ts, i.Has ts → ts < s.store.tsoHighWater ∧ owner ts = i.client ∧
    ∀ c, i.client = some c → ts < (s.clients c).cache.next
  disjoint : s.issued.Pairwise fun a b => ∀ ts, a.Has ts → ¬ b.Has ts

lemma tsoInv_init (batchSize : ℕ → ℕ) : TsoInv (TsoSystem.init batchSize) fun _ => none :=
  ⟨⟨le_refl 1, (by decide : 1 < 2 ^ 64)⟩, fun _ h => (nomatch h), fun _ _ h => (nomatch h),
    fun _ => ⟨le_refl 0, (by decide : 0 < 2 ^ 64)⟩, fun _ _ _ h => absurd h (not_lt_zero _),
      fun _ _ _ _ h => (nomatch h), fun _ h => (nomatch h), fun _ h => (nomatch h), List.Pairwise.nil⟩

variable {store : Store}

namespace TsoInv

variable {s : TsoSystem} {owner : ℕ → Option ℕ} {client : TsoClient} {point : TsoPoint}

/-- A task moves on and changes the cache of its client: what the client hands out next does not fall, and what is in
the cache or on its way belongs to the client. -/
lemma update (h : TsoInv s owner) (id : ℕ) (t : TsoTask) (hnext : (s.clients t.client).cache.next ≤ client.cache.next)
    (hordered : client.cache.next ≤ client.cache.endTs ∧ client.cache.endTs < 2 ^ 64)
    (hcache : ∀ ts, client.cache.next ≤ ts → ts < client.cache.endTs → owner ts = some t.client)
    (hpoint : ∀ startTs endTs, point = .install startTs endTs → ∀ ts, startTs ≤ ts → ts < endTs →
      owner ts = some t.client) : TsoInv (s.update id t client point) owner := by
  have hclients : ∀ c, (s.clients c).cache.next ≤ ((s.update id t client point).clients c).cache.next := by
    intro c
    by_cases hc : c = t.client
    · subst hc
      simpa [TsoSystem.update] using hnext
    · simp [TsoSystem.update, update_of_ne hc]
  refine ⟨h.highWater, h.last, h.owned, fun c => ?_, fun c ts hle hlt => ?_, fun id' t' startTs endTs hget hp => ?_,
    h.above, fun i hi ts hts => ?_, h.disjoint⟩
  · by_cases hc : c = t.client
    · subst hc
      simpa only [TsoSystem.update, update_self] using hordered
    · simpa only [TsoSystem.update, update_of_ne hc] using h.ordered c
  · by_cases hc : c = t.client
    · subst hc
      simp only [TsoSystem.update, update_self] at hle hlt
      exact hcache ts hle hlt
    · simp only [TsoSystem.update, update_of_ne hc] at hle hlt
      exact h.cache c ts hle hlt
  · rcases Table.get_insert_cases hget with ⟨-, rfl⟩ | ⟨-, hget⟩
    · exact hpoint startTs endTs hp
    · exact h.pending id' t' startTs endTs hget hp
  · obtain ⟨hlt, hown, hbelow⟩ := h.issued i hi ts hts
    exact ⟨hlt, hown, fun c hc => lt_of_lt_of_le (hbelow c hc) (hclients c)⟩

lemma issue (h : TsoInv s owner) (i : TsoIssue) (hfloor : i.floor < i.startTs)
    (hi : ∀ ts, i.Has ts → ts < s.store.tsoHighWater ∧ owner ts = i.client ∧
      ∀ c, i.client = some c → ts < (s.clients c).cache.next)
    (hnew : ∀ j ∈ s.issued, ∀ ts, j.Has ts → ¬ i.Has ts) : TsoInv { s with issued := s.issued ++ [i] } owner := by
  exact ⟨h.highWater, h.last, h.owned, h.ordered, h.cache, h.pending, forall_mem_append_one h.above hfloor,
    forall_mem_append_one h.issued hi, pairwise_append_one h.disjoint hnew⟩

lemma skipToAbove_next {c : TsoClient} (floor : ℕ) (h : c.cache.next ≤ c.cache.endTs ∧ c.cache.endTs < 2 ^ 64) :
    c.cache.next ≤ (c.skipToAbove floor).cache.next ∧
      (c.skipToAbove floor).cache.next ≤ (c.skipToAbove floor).cache.endTs ∧
      (c.skipToAbove floor).cache.endTs = c.cache.endTs := by
  unfold TsoClient.skipToAbove
  split
  · exact ⟨le_refl _, h.1, rfl⟩
  split
  · dsimp only
    omega
  · exact ⟨le_refl _, h.1, rfl⟩

section

variable (h : TsoInv s owner) (id : ℕ) (t : TsoTask) (hpoint : ∀ startTs endTs, point ≠ .install startTs endTs)
include h hpoint

lemma move (hnext : (s.clients t.client).cache.next ≤ client.cache.next ∧ client.cache.next ≤ client.cache.endTs)
    (hend : client.cache.endTs = (s.clients t.client).cache.endTs) : TsoInv (s.update id t client point) owner :=
  h.update id t hnext.1 ⟨hnext.2, hend ▸ (h.ordered t.client).2⟩
    (fun ts hle hlt => h.cache t.client ts (le_trans hnext.1 hle) (hend ▸ hlt))
    fun startTs endTs hp => absurd hp (hpoint startTs endTs)

lemma stay (hcache : client.cache = (s.clients t.client).cache) : TsoInv (s.update id t client point) owner :=
  h.move id t hpoint (by rw [hcache]; exact ⟨le_refl _, (h.ordered t.client).1⟩) (by rw [hcache])

lemma discard (hcache : client.cache = (s.clients t.client).discardBatch.cache) :
    TsoInv (s.update id t client point) owner :=
  h.move id t hpoint (by rw [hcache]; exact ⟨(h.ordered t.client).1, le_refl _⟩) (by rw [hcache]; rfl)

lemma claim {ts : ℕ} (hclaim : (s.clients t.client).claim = some (ts, client)) :
    TsoInv (s.update id t client point) owner ∧ (t.floor < ts →
      TsoInv
        { s.update id t client point with issued := s.issued ++ [⟨some t.client, ts, ts + 1, t.floor⟩] } owner) := by
  unfold TsoClient.claim at hclaim
  split at hclaim
  · cases hclaim
  next hlt =>
  have hnext : client.cache.next = (s.clients t.client).cache.next + 1 ∧
      client.cache.endTs = (s.clients t.client).cache.endTs := by
    cases hclaim
    exact ⟨rfl, rfl⟩
  have hmoved : TsoInv (s.update id t client point) owner := h.move id t hpoint (by omega) hnext.2
  cases hclaim
  have hown := h.cache t.client (s.clients t.client).cache.next (le_refl _) (not_le.1 hlt)
  refine ⟨hmoved, fun hfloor => hmoved.issue _ hfloor (fun ts hts => ?_) fun j hj ts hts hts' => ?_⟩
  · obtain rfl : ts = (s.clients t.client).cache.next := le_antisymm (le_of_lt_succ hts.2) hts.1
    refine ⟨h.owned _ _ hown, hown, ?_⟩
    rintro c ⟨⟩
    simp [TsoSystem.update]
  · obtain rfl : ts = (s.clients t.client).cache.next := le_antisymm (le_of_lt_succ hts'.2) hts'.1
    obtain ⟨-, hown', hbelow⟩ := h.issued j hj _ hts
    exact absurd (hbelow t.client (hown'.symm.trans hown)) (lt_irrefl _)

end

lemma stepTask (h : TsoInv s owner) {id : ℕ} {t : TsoTask} (ht : s.tasks.get id = some t) (step : TsoTaskStep) :
    TsoInv (s.stepTask id t step) owner := by
  have hunlock : ∀ c : TsoClient, (TsoSystem.unlock c id).cache = c.cache := by
    intro c
    unfold TsoSystem.unlock
    split <;> rfl
  cases step with
  | isLeader leader =>
    simp only [TsoSystem.stepTask]
    split
    · exact h
    split
    · exact h.stay id t (by simp) rfl
    by_cases hwas : (s.clients t.client).wasLeader = true
    · rw [if_pos hwas]
      exact h.discard id t (by simp) rfl
    · rw [if_neg hwas]
      exact h.stay id t (by simp) rfl
  | skip =>
    simp only [TsoSystem.stepTask]
    split
    · exact h
    · obtain ⟨hnext, hle, hend⟩ := skipToAbove_next t.floor (h.ordered t.client)
      exact h.move id t (by simp) ⟨hnext, hle⟩ hend
  | check =>
    simp only [TsoSystem.stepTask]
    split
    · exact h
    · refine h.stay id t (fun startTs endTs => ?_) rfl
      split <;> simp
  | lockRefill =>
    simp only [TsoSystem.stepTask]
    split
    · exact h
    · split
      · exact h.stay id t (by simp) rfl
      · exact h.stay id t (by simp) rfl
  | allocateFailed error retry =>
    simp only [TsoSystem.stepTask]
    split
    · exact h
    split
    · exact h.discard id t (by simp) (hunlock _)
    · split
      · exact h
      · exact h.stay id t (by simp) (hunlock _)
  | install =>
    simp only [TsoSystem.stepTask]
    split
    · next startTs endTs hp =>
      have hown := h.pending id t startTs endTs ht hp
      split
      · next c hinstall =>
        unfold TsoClient.installBatch at hinstall
        split_ifs at hinstall with hempty hregress
        cases hinstall
        have hlast := h.owned _ _ (hown (endTs - 1) (by omega) (by omega))
        have hbound := h.highWater.2
        refine h.update id t ?_ ?_ ?_ (by simp)
        · rw [hunlock]
          exact not_lt.1 hregress
        · rw [hunlock]
          exact ⟨by dsimp only; omega, by dsimp only; omega⟩
        · rw [hunlock]
          exact hown
      · exact h.stay id t (by simp) (hunlock _)
    · exact h
  | claim =>
    simp only [TsoSystem.stepTask]
    split
    · exact h
    split
    · exact h.stay id t (by simp) rfl
    · next ts client hclaim =>
      split
      · next hfloor => exact (h.claim id t (by simp) hclaim).2 hfloor
      · exact (h.claim id t (by simp) hclaim).1
  | cancel =>
    -- the cancelled task is moved off its point first, then forgotten
    have hmoved : TsoInv (s.update id t (TsoSystem.unlock (s.clients t.client) id) .start) owner :=
      h.stay id t (by simp) (hunlock _)
    refine ⟨hmoved.highWater, hmoved.last, hmoved.owned, hmoved.ordered, hmoved.cache,
      fun id' t' startTs endTs hget => ?_,
      hmoved.above, hmoved.issued, hmoved.disjoint⟩
    simp only [TsoSystem.stepTask, Table.get_erase] at hget
    split at hget
    · cases hget
    · exact h.pending id' t' startTs endTs hget

/-! ### Entries -/

lemma setStore (h : TsoInv s owner) {index : ℕ}
    (hwater : s.store.tsoHighWater ≤ store.tsoHighWater ∧ store.tsoHighWater < 2 ^ 64)
    (hlast : ∀ batch, store.tsoLastBatch = some batch → batch.revision ≤ index) :
    TsoInv { s with store := store, lastIndex := index } owner :=
  ⟨⟨le_trans h.highWater.1 hwater.1, hwater.2⟩, hlast, fun ts c ho => lt_of_lt_of_le (h.owned ts c ho) hwater.1,
    h.ordered, h.cache, h.pending, h.above, fun i hi ts hts =>
      let ⟨hlt, hrest⟩ := h.issued i hi ts hts
      ⟨lt_of_lt_of_le hlt hwater.1, hrest⟩, h.disjoint⟩

/-- The owners after the batch `[startTs, endTs)` has gone to a client. -/
def grant (owner : ℕ → Option ℕ) (startTs endTs client : ℕ) (ts : ℕ) : Option ℕ :=
  if startTs ≤ ts ∧ ts < endTs then some client else owner ts

lemma setOwner (h : TsoInv s owner) (client : ℕ) {startTs endTs : ℕ} (hstart : s.store.tsoHighWater = startTs)
    {index : ℕ} (hwater : store.tsoHighWater = endTs ∧ startTs < endTs ∧ endTs < 2 ^ 64)
    (hlast : ∀ batch, store.tsoLastBatch = some batch → batch.revision ≤ index) :
    TsoInv { s with store := store, lastIndex := index } (grant owner startTs endTs client) := by
  have hnext := h.setStore (by omega) hlast
  have hkeep : ∀ ts, ts < s.store.tsoHighWater → grant owner startTs endTs client ts = owner ts := fun ts hlt =>
    if_neg (by omega)
  have hsome : ∀ ts c, owner ts = some c → grant owner startTs endTs client ts = some c := fun ts c ho =>
    (hkeep ts (h.owned ts c ho)).trans ho
  refine ⟨hnext.highWater, hnext.last, fun ts c ho => ?_, h.ordered,
    fun c ts hle hlt => hsome ts c (h.cache c ts hle hlt),
    fun id t a b hget hp ts hle hlt => hsome ts _ (h.pending id t a b hget hp ts hle hlt), h.above,
    fun i hi ts hts => ?_, h.disjoint⟩
  · unfold grant at ho
    split at ho
    · dsimp only
      omega
    · exact hnext.owned ts c ho
  · obtain ⟨hlt, hown, hbelow⟩ := h.issued i hi ts hts
    exact ⟨(hnext.issued i hi ts hts).1, (hkeep ts hlt).trans hown, hbelow⟩

end TsoInv

lemma deliver_cases (s : TsoSystem) (e : Entry) (r : Response) (requester : TsoRequester) :
    s.deliver e r requester = s ∨ ∃ batchSize startTs endTs, e.payload = .normal (.tsoAllocate batchSize) ∧
      r = .tso startTs endTs ∧ s.lastIndex < e.logId.index ∧ ((∃ id t, s.tasks.get id = some t ∧
          s.deliver e r requester = s.update id t (s.clients t.client) (.install startTs endTs)) ∨
        s.deliver e r requester = { s with issued := s.issued ++ [⟨none, startTs, endTs, 0⟩] }) := by
  cases requester with
  | nobody => exact .inl rfl
  | task id =>
    simp only [TsoSystem.deliver]
    split
    · next t startTs endTs ht =>
      split
      · next hcond =>
        obtain ⟨hlt, -, hp⟩ := hcond
        exact .inr ⟨_, startTs, endTs, hp, rfl, hlt, .inl ⟨id, t, ht, rfl⟩⟩
      · exact .inl rfl
    · exact .inl rfl
  | rpc =>
    simp only [TsoSystem.deliver]
    split
    · next batchSize startTs endTs hp =>
      split
      · next hlt => exact .inr ⟨batchSize, startTs, endTs, hp, rfl, hlt, .inr rfl⟩
      · exact .inl rfl
    · exact .inl rfl

variable {s : TsoSystem} {owner : ℕ → Option ℕ}

lemma TsoInv.highWater_applyEntry (h : TsoInv s owner) {cfg : Config} {nowMs : ℤ}
    {e : Entry} {r : Response} (he : applyEntry cfg nowMs s.store e = .ok (store, r)) :
    (s.store.tsoHighWater ≤ store.tsoHighWater ∧ store.tsoHighWater < 2 ^ 64) ∧
      ∀ batch, store.tsoLastBatch = some batch → batch.revision ≤ max s.lastIndex e.logId.index := by
  rcases tso_applyEntry he with ⟨hwater, hlast⟩ | ⟨endTs, hfresh⟩
  · have hsame : store.tsoHighWater = s.store.tsoHighWater := by rw [tsoHighWater, hwater, tsoHighWater]
    refine ⟨by rw [hsame]; exact ⟨le_refl _, h.highWater.2⟩, fun batch hb => ?_⟩
    exact le_trans (h.last batch (hlast ▸ hb)) (le_max_left _ _)
  · refine ⟨hfresh.highWater ▸ ⟨le_of_lt hfresh.above, hfresh.bounded⟩, fun batch hb => ?_⟩
    rw [hfresh.last] at hb
    cases hb
    exact le_max_right _ _

/-- **An entry keeps the owners**: a batch that goes to somebody has not been handed out before. -/
lemma TsoInv.applyEntry (h : TsoInv s owner) {cfg : Config} {nowMs : ℤ}
    {e : Entry} {r : Response} (he : applyEntry cfg nowMs s.store e = .ok (store, r)) (requester : TsoRequester) :
    ∃ owner, TsoInv
      { s.deliver e r requester with store := store, lastIndex := max s.lastIndex e.logId.index } owner := by
  obtain ⟨hwater, hlast⟩ := h.highWater_applyEntry he
  have hnext := h.setStore hwater hlast
  rcases deliver_cases s e r requester with hsame | ⟨batchSize, startTs, endTs, hp, rfl, hlt, hto⟩
  · exact ⟨owner, hsame.symm ▸ hnext⟩
  obtain ⟨o, hop, ho⟩ := tsoAllocate_applyEntry hp he
  cases ho
  -- a batch that is given again would be one of this entry, which has not been applied before
  have hbatch : (o.startTs = s.store.tsoHighWater ∧ o.startTs < o.endTs ∧ store.tsoHighWater = o.endTs) ∨
      o.startTs = s.store.tsoHighWater ∧ o.endTs = s.store.tsoHighWater := by
    rcases applyTsoAllocate_ok hop with ⟨hfresh, hstart⟩ | ⟨-, ⟨batch, hb, hrev, -⟩ | hempty⟩
    · exact .inl ⟨hstart, hstart ▸ hfresh.above, hfresh.highWater⟩
    · have := h.last batch hb
      omega
    · exact .inr hempty
  have hpos := h.highWater.1
  rcases hto with ⟨id, t, ht, hdeliver⟩ | hdeliver
  · rw [hdeliver]
    rcases hbatch with ⟨hstart, hne, hend⟩ | ⟨hstart, hend⟩
    · have howner := h.setOwner t.client hstart.symm ⟨hend, hne, hend ▸ hwater.2⟩ hlast
      refine ⟨_, howner.update id t (le_refl _) (h.ordered t.client) (howner.cache t.client) ?_⟩
      rintro a b ⟨⟩ ts hle hlt
      exact if_pos ⟨hle, hlt⟩
    · refine ⟨owner, hnext.update id t (le_refl _) (h.ordered t.client) (h.cache t.client) ?_⟩
      rintro a b ⟨⟩ ts hle hlt
      omega
  · rw [hdeliver]
    refine ⟨owner, hnext.issue ⟨none, o.startTs, o.endTs, 0⟩ (by dsimp only; omega) (fun ts hts => ?_)
      fun j hj ts hts hts' => ?_⟩
    · obtain ⟨hle, hlt⟩ : o.startTs ≤ ts ∧ ts < o.endTs := hts
      refine ⟨by dsimp only; omega, ?_, fun c hc => (nomatch hc)⟩
      cases hown : owner ts with
      | none => rfl
      | some c =>
        have := h.owned ts c hown
        omega
    · obtain ⟨hle, hlt⟩ : o.startTs ≤ ts ∧ ts < o.endTs := hts'
      have := (h.issued j hj ts hts).1
      omega

lemma stepTask_store (s : TsoSystem) (id : ℕ) (t : TsoTask) (step : TsoTaskStep) :
    (s.stepTask id t step).store = s.store := by
  cases step <;> simp only [TsoSystem.stepTask] <;> repeat' split
  all_goals rfl

theorem TsoInv.step (h : TsoInv s owner) (cfg : Config) (a : TsoAction) :
    (∃ owner, TsoInv (s.step cfg a).1 owner) ∧ s.store.tsoHighWater ≤ (s.step cfg a).1.store.tsoHighWater := by
  cases a with
  | call id client floor =>
    refine ⟨⟨owner, ?_⟩, ?_⟩
    · simp only [TsoSystem.step]
      split
      · exact h
      refine ⟨h.highWater, h.last, h.owned, h.ordered, h.cache, fun id' t startTs endTs hget hp => ?_,
        h.above, h.issued,
        h.disjoint⟩
      rcases Table.get_insert_cases hget with ⟨-, rfl⟩ | ⟨-, hget⟩
      · cases hp
      · exact h.pending id' t startTs endTs hget hp
    · simp only [TsoSystem.step]
      split <;> exact le_refl _
  | task id step =>
    simp only [TsoSystem.step]
    cases ht : s.tasks.get id with
    | none => exact ⟨⟨owner, h⟩, le_refl _⟩
    | some t =>
      exact ⟨⟨owner, h.stepTask ht step⟩, le_of_eq (congrArg tsoHighWater (stepTask_store s id t step)).symm⟩
  | apply nowMs e requester =>
    simp only [TsoSystem.step]
    cases he : Raft.applyEntry cfg nowMs s.store e with
    | error err => exact ⟨⟨owner, h⟩, le_refl _⟩
    | ok p => exact ⟨h.applyEntry he requester, (h.highWater_applyEntry he).1.1⟩

/-- **No timestamp is issued twice.**  In every interleaving of the calls on any number of clients, of the entries of
the log of the system Region and of their answers: no timestamp belongs to two issues, every one is above the floor it
was asked for with, and the high water never falls and stays a `u64`. -/
theorem tso_run (cfg : Config) (batchSize : ℕ → ℕ) (as : List TsoAction) :
    (∀ s, s = exec (TsoSystem.step cfg) (TsoSystem.init batchSize) as →
      (s.issued.Pairwise fun a b => ∀ ts, a.Has ts → ¬ b.Has ts) ∧
      (∀ i ∈ s.issued, ∀ ts, i.Has ts → i.floor < ts) ∧ s.store.tsoHighWater < 2 ^ 64) ∧
    ∀ e ∈ trace (TsoSystem.step cfg) (TsoSystem.init batchSize) as,
      e.before.store.tsoHighWater ≤ e.after.store.tsoHighWater := by
  have hstep : ∀ s, ∀ a ∈ as, (∃ owner, TsoInv s owner) → ∃ owner, TsoInv (TsoSystem.step cfg s a).1 owner :=
    fun s a _ ⟨_, h⟩ => (h.step cfg a).1
  refine ⟨?_, fun e he => ?_⟩
  · rintro s rfl
    obtain ⟨owner, h⟩ := exec_inv (fun s => ∃ owner, TsoInv s owner) ⟨_, tsoInv_init batchSize⟩ hstep
    exact ⟨h.disjoint, fun i hi ts hts => lt_of_lt_of_le (h.above i hi) hts.1, h.highWater.2⟩
  · obtain ⟨owner, h⟩ := (trace_inv (fun s => ∃ owner, TsoInv s owner) ⟨_, tsoInv_init batchSize⟩ hstep e he).1
    have hwater := (h.step cfg e.act).2
    rwa [(step_of_mem_trace _ he).1] at hwater

end Coord.Raft
