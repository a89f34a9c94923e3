import Coord.Lib.Lists
import Coord.Lib.Trace

/-!
# The workflow store's transactions

Agents keep workflow instances, the leases of their drivers and an outbox of events in the key-value service. Each of
their calls reads some rows and sends transactions; the service applies a transaction as a whole or not at all. Between
two requests of a call all other calls take their steps. A transaction can be delivered again, or late, or its answer be
lost; a call can stop anywhere.

Rows are typed by the part of the key space they are in, and a record carries only the fields that the outbox reads or
writes; the event's payload goes along unchanged.
-/

namespace Coord.Workflow

open Coord.Lib List Function

abbrev Id := String

/-! ### Rows -/

inductive OutboxStatus where
  | pending
  | delivered
  | dead
  deriving DecidableEq

structure OutboxRecord where
  id : Id
  aggregateId : Id
  sequence : ℕ
  createdAtMs : ℤ
  status : OutboxStatus
  attempts : ℕ
  nextAttemptAtMs : ℤ
  deliveredAtMs : Option ℤ
  deriving DecidableEq

/-- The row of a driver's lease: the token of the driver, the revision of the row and the lease it is bound to. -/
structure Driver where
  token : String
  modRev : ℕ
  lease : ℤ
  deriving DecidableEq

/-- The rows under `/_workflow/v3/`: instances with the revision of their last write, drivers, and the outbox with its
counters, its index by event id, its records by aggregate and sequence number, and its index by attempt time. -/
structure Rows (I : Type) where
  revision : ℕ
  instances : Id → Option (I × ℕ)
  drivers : Id → Option Driver
  seqs : Id → Option ℕ
  ids : Id → Option (Id × ℕ)
  records : Id × ℕ → Option OutboxRecord
  pending : ℤ × Id → Option OutboxRecord

def Rows.empty (I : Type) : Rows I :=
  ⟨0, fun _ => none, fun _ => none, fun _ => none, fun _ => none, fun _ => none, fun _ => none⟩

/-- A comparison of a transaction; a missing row has version and revision `0` and the empty value. -/
inductive Compare where
  | instanceModRev (id : Id) (rev : ℤ)
  | driverVersionZero (id : Id)
  | driverModRev (id : Id) (rev : ℤ)
  | driverValue (id : Id) (token : String)
  | seqValue (aggregate : Id) (cur : Option ℕ)
  | idVersionZero (id : Id)
  | recordValue (key : Id × ℕ) (rec : OutboxRecord)
  deriving DecidableEq

inductive RowOp (I : Type) where
  | putInstance (id : Id) (value : I)
  | putDriver (id : Id) (token : String) (lease : ℤ)
  | putSeq (aggregate : Id) (n : ℕ)
  | putId (id : Id) (key : Id × ℕ)
  | putRecord (key : Id × ℕ) (rec : OutboxRecord)
  | putPending (key : ℤ × Id) (rec : OutboxRecord)
  | deleteRecord (key : Id × ℕ)
  | deleteId (id : Id)
  | deletePending (key : ℤ × Id)
  deriving DecidableEq

section

variable {I : Type}

def Rows.holds (rows : Rows I) : Compare → Bool
  | .instanceModRev id rev => decide (((rows.instances id).map fun r => (r.2 : ℤ)).getD 0 = rev)
  | .driverVersionZero id => (rows.drivers id).isNone
  | .driverModRev id rev => decide (((rows.drivers id).map fun d => (d.modRev : ℤ)).getD 0 = rev)
  | .driverValue id token => decide (((rows.drivers id).map Driver.token).getD "" = token)
  | .seqValue aggregate cur => decide (rows.seqs aggregate = cur)
  | .idVersionZero id => (rows.ids id).isNone
  | .recordValue key rec => decide (rows.records key = some rec)

/-- One operation of a transaction at the revision `rev`. -/
def Rows.apply (rev : ℕ) (rows : Rows I) : RowOp I → Rows I
  | .putInstance id value => { rows with instances := update rows.instances id (some (value, rev)) }
  | .putDriver id token lease => { rows with drivers := update rows.drivers id (some ⟨token, rev, lease⟩) }
  | .putSeq aggregate n => { rows with seqs := update rows.seqs aggregate (some n) }
  | .putId id key => { rows with ids := update rows.ids id (some key) }
  | .putRecord key rec => { rows with records := update rows.records key (some rec) }
  | .putPending key rec => { rows with pending := update rows.pending key (some rec) }
  | .deleteRecord key => { rows with records := update rows.records key none }
  | .deleteId id => { rows with ids := update rows.ids id none }
  | .deletePending key => { rows with pending := update rows.pending key none }

/-- All the comparisons hold, or nothing is written. -/
def Rows.transact (rows : Rows I) (compares : List Compare) (ops : List (RowOp I)) : Option (Rows I) :=
  if compares.all rows.holds then
    some { ops.foldl (Rows.apply (rows.revision + 1)) rows with revision := rows.revision + 1 }
  else none

/-- The end of a lease, by revocation or expiry: the rows bound to it go. -/
def Rows.revokeLease (rows : Rows I) (lease : ℤ) : Rows I :=
  { rows with
    revision := rows.revision + 1
    drivers := fun id => (rows.drivers id).filter fun d => d.lease != lease }

/-! ### Requests -/

/-- What the outbox stores for the record under its sequence number. -/
def OutboxRecord.stored (rec : OutboxRecord) (sequence : ℕ) : OutboxRecord :=
  { rec with sequence, status := .pending }

/-- The rows of the records, numbered from `sequence` on, all under one aggregate. -/
def recordOps (aggregate : Id) : ℕ → List OutboxRecord → List (RowOp I)
  | _, [] => []
  | sequence, rec :: recs =>
    .putId rec.id (aggregate, sequence) :: .putRecord (aggregate, sequence) (rec.stored sequence) ::
      .putPending (rec.nextAttemptAtMs, rec.id) (rec.stored sequence) :: recordOps aggregate (sequence + 1) recs

def outboxOps (recs : List OutboxRecord) (seqStart : ℕ) : List (RowOp I) :=
  match recs with
  | [] => []
  | first :: _ => .putSeq first.aggregateId (seqStart + recs.length - 1) :: recordOps first.aggregateId seqStart recs

def outboxCompares (aggregate : Id) (cur : Option ℕ) (recs : List OutboxRecord) : List Compare :=
  if recs = [] then []
  else .seqValue aggregate cur :: recs.map fun rec => .idVersionZero rec.id

/-- A driver's hold on an instance: its token, the revision of its row and its lease. -/
structure Guard where
  inst : Id
  token : String
  epoch : ℕ
  lease : ℤ
  deriving DecidableEq

/-- The instance as it was read, and the driver's row with the guard's revision and token. -/
def Guard.fenceCompares (g : Guard) (expectedModRev : ℤ) : List Compare :=
  [.instanceModRev g.inst expectedModRev, .driverModRev g.inst g.epoch, .driverValue g.inst g.token]

/-- The aggregate of a batch: that of its first record, or the instance. -/
def batchAggregate (inst : Id) (recs : List OutboxRecord) : Id :=
  (recs.head?.map OutboxRecord.aggregateId).getD inst

inductive Request (I : Type) where
  | acquire (inst : Id) (token : String) (lease : ℤ)
  | append (rec : OutboxRecord) (cur : Option ℕ)
  | commit (inst : Id) (value : I) (recs : List OutboxRecord) (cur : Option ℕ) (expected : Option ℤ)
  | fenced (g : Guard) (value : I) (recs : List OutboxRecord) (cur : Option ℕ) (expected : ℤ)
  | rewrite (rec : OutboxRecord) (oldPending : ℤ) (again : Bool)
  | prune (key : Id × ℕ) (rec : OutboxRecord)
  deriving DecidableEq

def Request.compares : Request I → List Compare
  | acquire inst _ _ => [.driverVersionZero inst]
  | append rec cur => outboxCompares rec.aggregateId cur [rec]
  | commit inst _ recs cur expected =>
    outboxCompares (batchAggregate inst recs) cur recs ++ expected.toList.map fun rev => .instanceModRev inst rev
  | fenced g _ recs cur expected => g.fenceCompares expected ++ outboxCompares (batchAggregate g.inst recs) cur recs
  | rewrite _ _ _ => []
  | prune key rec => [.recordValue key rec]

def Request.ops : Request I → List (RowOp I)
  | acquire inst token lease => [.putDriver inst token lease]
  | append rec cur => outboxOps [rec] (cur.getD 0 + 1)
  | commit inst value recs cur _ => .putInstance inst value :: outboxOps recs (cur.getD 0 + 1)
  | fenced g value recs cur _ => .putInstance g.inst value :: outboxOps recs (cur.getD 0 + 1)
  | rewrite rec oldPending again =>
    [.deletePending (oldPending, rec.id), .putRecord (rec.aggregateId, rec.sequence) rec] ++
      if again then [.putPending (rec.nextAttemptAtMs, rec.id) rec] else []
  | prune key rec => [.deleteRecord key, .deleteId rec.id, .deletePending (rec.nextAttemptAtMs, rec.id)]

def Rows.request (rows : Rows I) (r : Request I) : Option (Rows I) := rows.transact r.compares r.ops

/-! ### Calls -/

/-- What a relay does to a record after an attempt. -/
inductive Mark where
  | delivered (deliveredAtMs : ℤ)
  | retry (attempts : ℕ) (nextAttemptAtMs : ℤ)
  | dead (attempts : ℕ)
  deriving DecidableEq

def Mark.rewrite : Mark → OutboxRecord → OutboxRecord
  | delivered deliveredAtMs, rec => { rec with status := .delivered, deliveredAtMs := some deliveredAtMs }
  | retry attempts nextAttemptAtMs, rec => { rec with attempts, nextAttemptAtMs, status := .pending }
  | dead attempts, rec => { rec with status := .dead, attempts }

def Mark.again : Mark → Bool
  | retry _ _ => true
  | _ => false

/-- The transaction of a mark, from the record that was read. -/
def Mark.request (m : Mark) (rec : OutboxRecord) : Request I :=
  .rewrite (m.rewrite rec) rec.nextAttemptAtMs m.again

/-- From when on a finished record is kept; a pending one is never removed. -/
def retentionBasisMs (rec : OutboxRecord) : Option ℤ :=
  match rec.status with
  | .pending => none
  | .delivered => some (rec.deliveredAtMs.getD rec.createdAtMs)
  | .dead => some (max rec.createdAtMs rec.nextAttemptAtMs)

def canPrune (nowMs retentionMs : ℤ) (rec : OutboxRecord) : Bool :=
  (retentionBasisMs rec).any fun basis => decide (basis + retentionMs < nowMs)

inductive Op (I : Type) where
  | acquire (inst : Id) (token : String) (lease : ℤ)
  | append (rec : OutboxRecord)
  | commitStateAndOutboxBatch (inst : Id) (value : I) (recs : List OutboxRecord) (expected : Option ℤ)
  | fencedCommit (g : Guard) (value : I) (recs : List OutboxRecord) (expected : ℤ)
  | mark (m : Mark) (id : Id)
  | prune (nowMs retentionMs : ℤ) (key : Id × ℕ)
  deriving DecidableEq

inductive Answer where
  | done
  | committed (ok : Bool)
  | guard (g : Option Guard)
  | failed
  deriving DecidableEq

/-- Where a call stands: at the reads of `record_by_id` for a list of event ids, at the read of the counter, waiting for
the answer to a transaction, at the read of the driver's row, or at its end. -/
inductive Phase where
  | readId (ids : List Id)
  | readRecord (key : Id × ℕ) (ids : List Id)
  | readSequence
  | waiting (k : ℕ)
  | readEpoch
  | finished (answer : Answer)
  deriving DecidableEq

structure Call (I : Type) where
  op : Op I
  round : ℕ
  phase : Phase
  deriving DecidableEq

/-- What a call does next: it goes on, or it sends a transaction. -/
inductive Next (I : Type) where
  | goto (round : ℕ) (phase : Phase)
  | send (r : Request I)
  deriving DecidableEq

def Op.begin : Op I → Next I
  | acquire inst token lease => .send (.acquire inst token lease)
  | append rec => .goto 0 (.readId [rec.id])
  | commitStateAndOutboxBatch _ _ _ _ => .goto 0 .readSequence
  | fencedCommit g value recs expected =>
    if recs = [] then .send (.fenced g value [] none expected) else .goto 0 .readSequence
  | mark _ id => .goto 0 (.readId [id])
  | prune _ _ key => .goto 0 (.readRecord key [])

/-- A record that was looked for is not there: an append or a batch takes another of its eight rounds. -/
def Call.missing (c : Call I) : Next I :=
  match c.op with
  | .append _ => if c.round < 8 then .goto c.round .readSequence else .goto c.round (.finished .failed)
  | .commitStateAndOutboxBatch _ _ _ _ =>
    if c.round < 8 then .goto c.round .readSequence else .goto c.round (.finished (.committed false))
  | _ => .goto c.round (.finished .done)

def Call.present (c : Call I) (rec : OutboxRecord) (ids : List Id) : Next I :=
  match c.op with
  | .commitStateAndOutboxBatch _ _ _ _ =>
    if ids = [] then .goto c.round (.finished (.committed true)) else .goto c.round (.readId ids)
  | .mark m _ => .send (m.request rec)
  | .prune nowMs retentionMs key =>
    if canPrune nowMs retentionMs rec then .send (.prune key rec) else .goto c.round (.finished .done)
  | _ => .goto c.round (.finished .done)

/-- The transaction of a round, after the counter was read. -/
def Call.afterSequence (c : Call I) (cur : Option ℕ) : Next I :=
  match c.op with
  | .append rec => .send (.append rec cur)
  | .commitStateAndOutboxBatch inst value recs expected => .send (.commit inst value recs cur expected)
  | .fencedCommit g value recs expected => .send (.fenced g value recs cur expected)
  | _ => .goto c.round (.finished .failed)

def Op.aggregate : Op I → Id
  | append rec => rec.aggregateId
  | commitStateAndOutboxBatch inst _ recs _ => batchAggregate inst recs
  | fencedCommit g _ recs _ => batchAggregate g.inst recs
  | _ => ""

def Call.read (c : Call I) (rows : Rows I) : Next I :=
  match c.phase with
  | .readId [] => .goto c.round c.phase
  | .readId (id :: rest) =>
    match rows.ids id with
    | none => c.missing
    | some key => .goto c.round (.readRecord key rest)
  | .readRecord key rest =>
    match rows.records key with
    | none => c.missing
    | some rec => c.present rec rest
  | .readSequence => c.afterSequence (rows.seqs c.op.aggregate)
  | .readEpoch =>
    match c.op with
    | .acquire inst token lease =>
      match rows.drivers inst with
      | none => .goto c.round (.finished .failed)
      | some d => .goto c.round (.finished (.guard (some ⟨inst, token, d.modRev, lease⟩)))
    | _ => .goto c.round (.finished .failed)
  | .waiting _ => .goto c.round c.phase
  | .finished _ => .goto c.round c.phase

def Call.hear (c : Call I) (succeeded : Bool) : Next I :=
  match c.op with
  | .acquire _ _ _ => if succeeded then .goto c.round .readEpoch else .goto c.round (.finished (.guard none))
  | .append rec => if succeeded then .goto c.round (.finished .done) else .goto (c.round + 1) (.readId [rec.id])
  | .commitStateAndOutboxBatch _ _ recs _ =>
    if succeeded then .goto c.round (.finished (.committed true))
    else if recs = [] then
      if c.round + 1 < 8 then .goto (c.round + 1) .readSequence else .goto (c.round + 1) (.finished (.committed false))
    else .goto (c.round + 1) (.readId (recs.map OutboxRecord.id))
  | .fencedCommit _ _ _ _ => .goto c.round (.finished (.committed succeeded))
  | .mark _ _ => .goto c.round (.finished .done)
  | .prune _ _ _ => .goto c.round (.finished .done)

/-! ### The service with all calls -/

/-- The rows, the calls, every transaction that was sent, by its call, and the requests that took effect, in order. -/
structure World (I : Type) where
  rows : Rows I
  calls : List (Call I)
  sent : List (ℕ × Request I)
  history : List (Request I)

def World.start (I : Type) : World I := ⟨.empty I, [], [], []⟩

/-- A guard is one that an acquisition has answered. -/
def World.granted (w : World I) (g : Guard) : Prop := ∃ c ∈ w.calls, c.phase = .finished (.guard (some g))

instance (w : World I) (g : Guard) : Decidable (w.granted g) :=
  inferInstanceAs (Decidable (∃ c ∈ w.calls, c.phase = .finished (.guard (some g))))

/-- A call goes on; a transaction it sends is the last one sent. -/
def World.goOn (w : World I) (i : ℕ) (c : Call I) : Next I → World I
  | .goto round phase => { w with calls := w.calls.set i { c with round, phase } }
  | .send r =>
    { w with calls := w.calls.set i { c with phase := .waiting w.sent.length }, sent := w.sent ++ [(i, r)] }

inductive Action (I : Type) where
  | start (op : Op I)
  /-- The call `i` makes its next read. -/
  | read (i : ℕ)
  /-- The transaction `k` is delivered, and its call hears the answer or not. -/
  | deliver (k : ℕ) (heard : Bool)
  /-- The call `i` gives up waiting. -/
  | giveUp (i : ℕ)
  /-- A lease is revoked or runs out. -/
  | revoke (lease : ℤ)
  deriving DecidableEq

def World.mayStart (w : World I) : Op I → Prop
  | .fencedCommit g _ _ _ => w.granted g
  | _ => True

instance (w : World I) (op : Op I) : Decidable (w.mayStart op) := by
  cases op <;> (unfold World.mayStart; infer_instance)

/-- The answer to the transaction `k` reaches its call, if that still waits for it. -/
def World.answer (w : World I) (k i : ℕ) (succeeded : Bool) : World I :=
  match w.calls[i]? with
  | some c => if c.phase = .waiting k then w.goOn i c (c.hear succeeded) else w
  | none => w

/-- One step; the answer is the request that took effect. -/
def step (w : World I) : Action I → World I × Option (Request I)
  | .start op =>
    if w.mayStart op then
      let c : Call I := ⟨op, 0, .finished .failed⟩
      (World.goOn { w with calls := w.calls ++ [c] } w.calls.length c op.begin, none)
    else (w, none)
  | .read i =>
    match w.calls[i]? with
    | none => (w, none)
    | some c => (w.goOn i c (c.read w.rows), none)
  | .deliver k heard =>
    match w.sent[k]? with
    | none => (w, none)
    | some (i, r) =>
      match w.rows.request r with
      | none => (if heard then w.answer k i false else w, none)
      | some rows =>
        let w' := { w with rows, history := w.history ++ [r] }
        (if heard then w'.answer k i true else w', some r)
  | .giveUp i =>
    match w.calls[i]? with
    | none => (w, none)
    | some c =>
      match c.phase with
      | .waiting _ => ({ w with calls := w.calls.set i { c with phase := .finished .failed } }, none)
      | _ => (w, none)
  | .revoke lease => ({ w with rows := w.rows.revokeLease lease }, none)

end

/-! ### What a step does -/

section

variable {I : Type} {w : World I}

/-- The call after its next step, when `n` transactions have been sent before. -/
def Call.after (c : Call I) (n : ℕ) : Next I → Call I
  | .goto round phase => { c with round, phase }
  | .send _ => { c with phase := .waiting n }

@[simp] lemma Call.after_op (c : Call I) (n : ℕ) (next : Next I) : (c.after n next).op = c.op := by
  cases next <;> rfl

@[simp] lemma World.goOn_calls (w : World I) (i : ℕ) (c : Call I) (next : Next I) :
    (w.goOn i c next).calls = w.calls.set i (c.after w.sent.length next) := by
  cases next <;> rfl

@[simp] lemma World.goOn_frame (w : World I) (i : ℕ) (c : Call I) (next : Next I) :
    (w.goOn i c next).rows = w.rows ∧ (w.goOn i c next).history = w.history := by
  cases next <;> exact ⟨rfl, rfl⟩

variable {i j : ℕ} {c : Call I} {x : ℕ × Request I} {a : Action I} {r : Request I}

lemma World.mem_goOn_sent {next : Next I}
    (h : x ∈ (w.goOn i c next).sent) : x ∈ w.sent ∨ x.1 = i ∧ next = .send x.2 := by
  cases next with
  | goto round phase => exact .inl h
  | send r =>
    rcases mem_append_one.1 h with h | rfl
    · exact .inl h
    · exact .inr ⟨rfl, rfl⟩

lemma Call.hear_ne_send (c : Call I) (b : Bool) (r : Request I) : c.hear b ≠ .send r := by
  unfold Call.hear
  split
  · split <;> simp
  · split <;> simp
  · split
    · simp
    · split
      · split <;> simp
      · simp
  · simp
  · simp
  · simp

/-- How the call `j` can change in one step whose answer is `out`; a success that it hears is its own request's. -/
inductive Call.Moves (w : World I) (out : Option (Request I)) (j : ℕ) (c : Call I) : Call I → Prop where
  | stay : Moves w out j c c
  | read : Moves w out j c (c.after w.sent.length (c.read w.rows))
  | hear (k : ℕ) (b : Bool) (hk : c.phase = .waiting k) (hb : b = true → ∃ r, out = some r ∧ (j, r) ∈ w.sent) :
    Moves w out j c (c.after w.sent.length (c.hear b))
  | giveUp (k : ℕ) (hk : c.phase = .waiting k) : Moves w out j c { c with phase := .finished .failed }

@[simp] lemma World.answer_frame (w : World I) (k i : ℕ) (b : Bool) :
    (w.answer k i b).rows = w.rows ∧ (w.answer k i b).history = w.history := by
  unfold World.answer
  split
  · split <;> simp
  · exact ⟨rfl, rfl⟩

lemma World.mem_answer_sent {k : ℕ} {b : Bool} (h : x ∈ (w.answer k i b).sent) : x ∈ w.sent := by
  unfold World.answer at h
  split at h
  · next c hc =>
    split at h
    · exact (World.mem_goOn_sent h).resolve_right fun hs => c.hear_ne_send b _ hs.2
    · exact h
  · exact h

/-- **What a step does to the rows**: nothing, or what a sent request asks, or it ends a lease. -/
lemma step_rows (w : World I) (a : Action I) :
    ((step w a).1.rows = w.rows ∧ (step w a).1.history = w.history ∧ (step w a).2 = none) ∨
    (∃ i r, (i, r) ∈ w.sent ∧ w.rows.request r = some (step w a).1.rows ∧
      (step w a).1.history = w.history ++ [r] ∧ (step w a).2 = some r) ∨
    ∃ lease, (step w a).1.rows = w.rows.revokeLease lease ∧ (step w a).1.history = w.history ∧ (step w a).2 = none := by
  cases a with
  | start op =>
    refine .inl ?_
    simp only [step]
    split <;> simp
  | read i =>
    refine .inl ?_
    simp only [step]
    split <;> simp
  | deliver k heard =>
    simp only [step]
    split
    · simp
    next i r hk =>
    split
    · refine .inl ?_
      cases heard <;> simp
    · next rows hrows =>
      refine .inr (.inl ⟨i, r, mem_of_getElem? hk, ?_⟩)
      cases heard <;> simp [hrows]
  | giveUp i =>
    refine .inl ?_
    simp only [step]
    split
    · simp
    · split <;> simp
  | revoke lease => exact .inr (.inr ⟨lease, rfl, rfl, rfl⟩)

lemma step_sent (h : x ∈ (step w a).1.sent) :
    x ∈ w.sent ∨ (∃ c, w.calls[x.1]? = some c ∧ c.read w.rows = .send x.2) ∨
      ∃ op, a = .start op ∧ w.mayStart op ∧ x.1 = w.calls.length ∧ op.begin = .send x.2 := by
  cases a with
  | start op =>
    simp only [step] at h
    split at h
    · next hop =>
      rcases World.mem_goOn_sent h with h | ⟨hi, hs⟩
      · exact .inl h
      · exact .inr (.inr ⟨op, rfl, hop, hi, hs⟩)
    · exact .inl h
  | read i =>
    simp only [step] at h
    split at h
    · exact .inl h
    · next c hc =>
      rcases World.mem_goOn_sent h with h | ⟨hi, hs⟩
      · exact .inl h
      · exact .inr (.inl ⟨c, hi ▸ hc, hs⟩)
  | deliver k heard =>
    simp only [step] at h
    split at h
    · exact .inl h
    next i r _ =>
    split at h
    · cases heard
      · exact .inl h
      · exact .inl (World.mem_answer_sent h)
    · next rows _ =>
      cases heard
      · exact .inl h
      · exact .inl (World.mem_answer_sent (w := { w with rows, history := w.history ++ [r] }) h)
  | giveUp i =>
    simp only [step] at h
    split at h
    · exact .inl h
    · split at h <;> exact .inl h
  | revoke lease => exact .inl h

/-! ### What a step does to the calls -/

lemma World.answer_calls {k : ℕ} {b : Bool} (h : w.calls[j]? = some c) :
    (w.answer k i b).calls[j]? = some c ∨ i = j ∧ c.phase = .waiting k ∧
      (w.answer k i b).calls[j]? = some (c.after w.sent.length (c.hear b)) := by
  unfold World.answer
  split
  · next d hd =>
    split
    · next hk =>
      rw [World.goOn_calls]
      rcases getElem?_set_or hd h with ⟨rfl, rfl, hset⟩ | hset
      · exact .inr ⟨rfl, hk, hset _⟩
      · exact .inl (hset _)
    · exact .inl h
  · exact .inl h

lemma step_calls (h : w.calls[j]? = some c) (a : Action I) :
    ∃ c', (step w a).1.calls[j]? = some c' ∧ c.Moves w (step w a).2 j c' := by
  have hlt : j < w.calls.length := (List.getElem?_eq_some_iff.1 h).1
  cases a with
  | start op =>
    simp only [step]
    split
    · refine ⟨c, ?_, .stay⟩
      rw [World.goOn_calls, getElem?_set_ne hlt.ne', getElem?_append_left hlt]
      exact h
    · exact ⟨c, h, .stay⟩
  | read i =>
    simp only [step]
    split
    · exact ⟨c, h, .stay⟩
    next d hd =>
    rw [World.goOn_calls]
    rcases getElem?_set_or hd h with ⟨rfl, rfl, hset⟩ | hset
    · exact ⟨_, hset _, .read⟩
    · exact ⟨c, hset _, .stay⟩
  | deliver k heard =>
    simp only [step]
    split
    · exact ⟨c, h, .stay⟩
    next i r hsent =>
    split
    · cases heard
      · exact ⟨c, h, .stay⟩
      · rcases World.answer_calls (k := k) (i := i) (b := false) h with hc | ⟨-, hk, hc⟩
        · exact ⟨c, hc, .stay⟩
        · exact ⟨_, hc, .hear k false hk nofun⟩
    · next rows _ =>
      cases heard
      · exact ⟨c, h, .stay⟩
      · rcases World.answer_calls (w := { w with rows, history := w.history ++ [r] }) (k := k) (i := i) (b := true) h
          with hc | ⟨hij, hk, hc⟩
        · exact ⟨c, hc, .stay⟩
        · subst hij
          exact ⟨_, hc, .hear k true hk fun _ => ⟨r, rfl, mem_of_getElem? hsent⟩⟩
  | giveUp i =>
    simp only [step]
    split
    · exact ⟨c, h, .stay⟩
    next d hd =>
    split
    · next k hk =>
      rcases getElem?_set_or hd h with ⟨rfl, rfl, hset⟩ | hset
      · exact ⟨_, hset _, .giveUp k hk⟩
      · exact ⟨c, hset _, .stay⟩
    · exact ⟨c, h, .stay⟩
  | revoke lease => exact ⟨c, h, .stay⟩

lemma World.answer_length (w : World I) (k i : ℕ) (b : Bool) : (w.answer k i b).calls.length = w.calls.length := by
  unfold World.answer
  split
  · split <;> simp
  · rfl

lemma step_length (h : ∀ op, a ≠ .start op) : (step w a).1.calls.length = w.calls.length := by
  cases a with
  | start op => exact absurd rfl (h op)
  | read i =>
    simp only [step]
    split <;> simp
  | deliver k heard =>
    simp only [step]
    split
    · rfl
    · split <;> cases heard <;> simp [World.answer_length]
  | giveUp i =>
    simp only [step]
    split
    · rfl
    · split <;> simp
  | revoke lease => rfl

lemma step_new_call (h : (step w a).1.calls[j]? = some c) (hj : w.calls[j]? = none) :
    ∃ op, a = .start op ∧ w.mayStart op ∧ c = (⟨op, 0, .finished .failed⟩ : Call I).after w.sent.length op.begin := by
  have hlen : w.calls.length ≤ j := getElem?_eq_none_iff.1 hj
  have hlt : j < (step w a).1.calls.length := (List.getElem?_eq_some_iff.1 h).1
  by_cases ha : ∀ op, a ≠ .start op
  · rw [step_length ha] at hlt
    exact absurd hlt (not_lt.2 hlen)
  push Not at ha
  obtain ⟨op, rfl⟩ := ha
  simp only [step] at h hlt
  split at h
  · next hop =>
    rw [if_pos hop, World.goOn_calls, length_set, length_append, length_singleton] at hlt
    obtain rfl : j = w.calls.length := by omega
    rw [World.goOn_calls, getElem?_set_self (by simp)] at h
    exact ⟨op, rfl, hop, (Option.some.inj h).symm⟩
  · rw [hj] at h
    cases h

lemma mem_step_calls {c' : Call I} (h : c' ∈ (step w a).1.calls) :
    (∃ (j : ℕ) (c : Call I), w.calls[j]? = some c ∧ c.Moves w (step w a).2 j c') ∨ ∃ op, a = .start op ∧ w.mayStart op ∧
      c' = (⟨op, 0, .finished .failed⟩ : Call I).after w.sent.length op.begin := by
  obtain ⟨j, hj⟩ := mem_iff_getElem?.1 h
  cases hc : w.calls[j]? with
  | none => exact .inr (step_new_call hj hc)
  | some c =>
    obtain ⟨c'', hc'', hmoves⟩ := step_calls hc a
    cases hc''.symm.trans hj
    exact .inl ⟨j, c, hc, hmoves⟩

/-! ### What a request does to the rows it is not about -/

lemma foldl_apply_keeps {β : Type} (f : Rows I → β) {rev : ℕ} {ops : List (RowOp I)}
    (h : ∀ op ∈ ops, ∀ rows, f (Rows.apply rev rows op) = f rows) (rows : Rows I) :
    f (ops.foldl (Rows.apply rev) rows) = f rows := by
  induction ops generalizing rows with
  | nil => rfl
  | cons op ops ih =>
    rw [foldl_cons, ih (fun o ho => h o (mem_cons_of_mem _ ho)), h op mem_cons_self]

lemma mem_recordOps {aggregate : Id} {n : ℕ} {recs : List OutboxRecord} {op : RowOp I}
    (h : op ∈ recordOps aggregate n recs) :
    (∃ id key, op = .putId id key) ∨ (∃ key rec, op = .putRecord key rec) ∨ ∃ key rec, op = .putPending key rec := by
  induction recs generalizing n with
  | nil => cases h
  | cons rec recs ih =>
    simp only [recordOps, mem_cons] at h
    rcases h with rfl | rfl | rfl | h
    · exact .inl ⟨_, _, rfl⟩
    · exact .inr (.inl ⟨_, _, rfl⟩)
    · exact .inr (.inr ⟨_, _, rfl⟩)
    · exact ih h

lemma foldl_outboxOps_frame (recs : List OutboxRecord) (n rev : ℕ) (rows : Rows I) :
    ((outboxOps recs n).foldl (Rows.apply rev) rows).instances = rows.instances ∧
      ((outboxOps recs n).foldl (Rows.apply rev) rows).drivers = rows.drivers := by
  have hop : ∀ op ∈ outboxOps recs n, ∀ rows : Rows I, (rows.apply rev op).instances = rows.instances ∧
      (rows.apply rev op).drivers = rows.drivers := by
    intro op hop rows
    unfold outboxOps at hop
    split at hop
    · cases hop
    · rcases mem_cons.1 hop with rfl | hop
      · exact ⟨rfl, rfl⟩
      · rcases mem_recordOps hop with ⟨_, _, rfl⟩ | ⟨_, _, rfl⟩ | ⟨_, _, rfl⟩ <;> exact ⟨rfl, rfl⟩
  exact ⟨foldl_apply_keeps Rows.instances (fun op ho r => (hop op ho r).1) rows,
    foldl_apply_keeps Rows.drivers (fun op ho r => (hop op ho r).2) rows⟩

lemma request_eq_some {rows rows' : Rows I} (h : rows.request r = some rows') :
    (∀ c ∈ r.compares, rows.holds c = true) ∧
      rows' = { r.ops.foldl (Rows.apply (rows.revision + 1)) rows with revision := rows.revision + 1 } := by
  unfold Rows.request Rows.transact at h
  split at h
  · next hall => exact ⟨all_eq_true.1 hall, (Option.some.inj h).symm⟩
  · cases h

/-! ### Which call sends which transaction -/

/-- The transactions that a call of the operation can send. -/
inductive Op.Sends : Op I → Request I → Prop where
  | acquire {inst : Id} {token : String} {lease : ℤ} : Sends (.acquire inst token lease) (.acquire inst token lease)
  | append {rec : OutboxRecord} (cur : Option ℕ) : Sends (.append rec) (.append rec cur)
  | commit {inst : Id} {value : I} {recs : List OutboxRecord} {expected : Option ℤ} (cur : Option ℕ) :
    Sends (.commitStateAndOutboxBatch inst value recs expected) (.commit inst value recs cur expected)
  | fenced {g : Guard} {value : I} {recs : List OutboxRecord} {expected : ℤ} (cur : Option ℕ) :
    Sends (.fencedCommit g value recs expected) (.fenced g value recs cur expected)
  | mark {m : Mark} {id : Id} (rec : OutboxRecord) : Sends (.mark m id) (m.request rec)
  | prune {nowMs retentionMs : ℤ} {key : Id × ℕ} (rec : OutboxRecord) (h : canPrune nowMs retentionMs rec = true) :
    Sends (.prune nowMs retentionMs key) (.prune key rec)

lemma Op.begin_sends {op : Op I} (h : op.begin = .send r) : op.Sends r := by
  cases op with
  | acquire inst token lease =>
    obtain rfl := Next.send.inj h
    exact .acquire
  | fencedCommit g value recs expected =>
    simp only [Op.begin] at h
    split at h
    · next hrecs =>
      obtain rfl := Next.send.inj h
      subst hrecs
      exact .fenced none
    · cases h
  | append rec => cases h
  | commitStateAndOutboxBatch inst value recs expected => cases h
  | mark m id => cases h
  | prune nowMs retentionMs key => cases h

lemma Call.missing_ne_send (c : Call I) (r : Request I) : c.missing ≠ .send r := by
  unfold Call.missing
  split
  · split <;> simp
  · split <;> simp
  · simp

lemma Call.present_sends {rec : OutboxRecord} {ids : List Id} (h : c.present rec ids = .send r) : c.op.Sends r := by
  unfold Call.present at h
  split at h
  · split at h <;> cases h
  · next hop =>
    obtain rfl := Next.send.inj h
    exact hop ▸ .mark rec
  · next hop =>
    split at h
    · next hc =>
      obtain rfl := Next.send.inj h
      exact hop ▸ .prune rec hc
    · cases h
  · cases h

lemma Call.afterSequence_sends {cur : Option ℕ} (h : c.afterSequence cur = .send r) : c.op.Sends r := by
  unfold Call.afterSequence at h
  split at h
  · next hop =>
    obtain rfl := Next.send.inj h
    exact hop ▸ .append cur
  · next hop =>
    obtain rfl := Next.send.inj h
    exact hop ▸ .commit cur
  · next hop =>
    obtain rfl := Next.send.inj h
    exact hop ▸ .fenced cur
  · cases h

lemma Call.read_sends {rows : Rows I} (h : c.read rows = .send r) : c.op.Sends r := by
  unfold Call.read at h
  split at h
  · cases h
  · split at h
    · exact absurd h (c.missing_ne_send r)
    · cases h
  · split at h
    · exact absurd h (c.missing_ne_send r)
    · exact Call.present_sends h
  · exact Call.afterSequence_sends h
  · split at h
    · split at h <;> cases h
    · cases h
  · cases h
  · cases h

lemma Call.Moves.op_eq {out : Option (Request I)} {c' : Call I} (h : c.Moves w out j c') : c'.op = c.op := by
  cases h with
  | stay => rfl
  | read => exact c.after_op _ _
  | hear k b hk hb => exact c.after_op _ _
  | giveUp k hk => rfl

/-- Every transaction that was sent is one of its call. -/
def SentByCalls (w : World I) : Prop :=
  ∀ x ∈ w.sent, ∃ c, w.calls[x.1]? = some c ∧ c.op.Sends x.2

lemma step_start {op : Op I} (h : w.mayStart op) : (step w (.start op)).1.calls[w.calls.length]? =
      some ((⟨op, 0, .finished .failed⟩ : Call I).after w.sent.length op.begin) := by
  simp only [step, if_pos h, World.goOn_calls]
  exact getElem?_set_self (by simp)

lemma sentByCalls_step (h : SentByCalls w) (a : Action I) : SentByCalls (step w a).1 := by
  -- the call of an earlier transaction keeps its operation
  have hcall : ∀ {i : ℕ} {c : Call I} {r : Request I}, w.calls[i]? = some c → c.op.Sends r →
      ∃ c' : Call I, (step w a).1.calls[i]? = some c' ∧ c'.op.Sends r := by
    intro i c r hc hr
    obtain ⟨c', hc', hmoves⟩ := step_calls hc a
    exact ⟨c', hc', hmoves.op_eq.symm ▸ hr⟩
  intro x hx
  rcases step_sent hx with hx | ⟨c, hc, hread⟩ | ⟨op, rfl, hop, hi, hbegin⟩
  · obtain ⟨c, hc, hr⟩ := h x hx
    exact hcall hc hr
  · exact hcall hc (Call.read_sends hread)
  · refine ⟨_, hi ▸ step_start hop, ?_⟩
    rw [Call.after_op]
    exact Op.begin_sends hbegin

/-- The operations of the calls, in the order of their starts. -/
def World.ops (w : World I) : List (Op I) := w.calls.map Call.op

lemma step_ops (w : World I) (a : Action I) :
    (step w a).1.ops = w.ops ∨ ∃ op, a = .start op ∧ (step w a).1.ops = w.ops ++ [op] := by
  have hkeep : ∀ {j : ℕ} {c : Call I}, w.calls[j]? = some c → (step w a).1.ops[j]? = some c.op := by
    intro j c hc
    obtain ⟨c', hc', hmoves⟩ := step_calls hc a
    rw [World.ops, getElem?_map, hc']
    exact congrArg some hmoves.op_eq
  by_cases hlen : (step w a).1.calls.length = w.calls.length
  · refine .inl (ext_getElem? fun j => ?_)
    cases hc : w.calls[j]? with
    | none =>
      have hj := getElem?_eq_none_iff.1 hc
      rw [World.ops, World.ops, getElem?_map, getElem?_map, hc, getElem?_eq_none_iff.2 (hlen ▸ hj)]
    | some c => rw [hkeep hc, World.ops, getElem?_map, hc]; rfl
  · have ha : ∃ op, a = .start op := by
      by_contra hno
      push Not at hno
      exact hlen (step_length hno)
    obtain ⟨op, rfl⟩ := ha
    refine .inr ⟨op, rfl, ?_⟩
    simp only [step] at hlen ⊢
    split
    · simp [World.ops]
    · next hno => exact absurd (by rw [if_neg hno]) hlen

end

end Coord.Workflow
