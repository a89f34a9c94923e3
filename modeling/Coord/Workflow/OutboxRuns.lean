import Coord.Workflow.Leases

/-!
# Numbers and ids of the outbox

An instance and its events are written by one transaction, which compares the aggregate's counter and that no event id
is known. A call that does not know the outcome of its transaction looks for the rows of its events and tries again.
-/

namespace Coord.Workflow

open Coord.Lib Function List

variable {I : Type} {w : World I}

/-! ### What a batch writes -/

section

variable {rev n : ℕ} {aggregate : Id} {recs : List OutboxRecord}

def Rows.store (rows : Rows I) (aggregate : Id) (n : ℕ) (rec : OutboxRecord) : Rows I :=
  { rows with
    ids := update rows.ids rec.id (some (aggregate, n))
    records := update rows.records (aggregate, n) (some (rec.stored n))
    pending := update rows.pending (rec.nextAttemptAtMs, rec.id) (some (rec.stored n)) }

lemma foldl_recordOps_cons (rows : Rows I) (rec : OutboxRecord) :
    (recordOps aggregate n (rec :: recs)).foldl (Rows.apply rev) rows =
      (recordOps aggregate (n + 1) recs).foldl (Rows.apply rev) (rows.store aggregate n rec) :=
  rfl

lemma recordOps_seqs (rows : Rows I) :
    ((recordOps aggregate n recs).foldl (Rows.apply rev) rows).seqs = rows.seqs := by
  refine foldl_apply_keeps Rows.seqs (fun op hop rows => ?_) rows
  rcases mem_recordOps hop with ⟨_, _, rfl⟩ | ⟨_, _, rfl⟩ | ⟨_, _, rfl⟩ <;> rfl

lemma recordOps_of_notMem {id : Id} (h : id ∉ recs.map OutboxRecord.id) (rows : Rows I) :
    let rows' := (recordOps aggregate n recs).foldl (Rows.apply rev) rows
    rows'.ids id = rows.ids id ∧ ∀ t, rows'.pending (t, id) = rows.pending (t, id) := by
  induction recs generalizing n rows with
  | nil => exact ⟨rfl, fun _ => rfl⟩
  | cons rec recs ih =>
    rw [map_cons, mem_cons, not_or] at h
    simp only [foldl_recordOps_cons, ih h.2]
    exact ⟨update_of_ne h.1 _ _, fun t => update_of_ne (fun heq => h.1 (congrArg Prod.snd heq)) _ _⟩

lemma recordOps_records_of_ne {key : Id × ℕ} (h : ∀ k < recs.length, key ≠ (aggregate, n + k)) (rows : Rows I) :
    ((recordOps aggregate n recs).foldl (Rows.apply rev) rows).records key = rows.records key := by
  induction recs generalizing n rows with
  | nil => rfl
  | cons rec recs ih =>
    have hrest : ∀ k < recs.length, key ≠ (aggregate, n + 1 + k) := by
      intro k hk
      rw [Nat.add_assoc, Nat.add_comm 1 k]
      exact h (k + 1) (Nat.succ_lt_succ hk)
    rw [foldl_recordOps_cons, ih hrest]
    exact update_of_ne (h 0 (Nat.succ_pos _)) _ _

lemma recordOps_getElem (hnodup : (recs.map OutboxRecord.id).Nodup) {k : ℕ} {rec : OutboxRecord}
    (hk : recs[k]? = some rec) (rows : Rows I) :
    let rows' := (recordOps aggregate n recs).foldl (Rows.apply rev) rows
    rows'.ids rec.id = some (aggregate, n + k) ∧ rows'.records (aggregate, n + k) = some (rec.stored (n + k)) ∧
      ∀ t, rows'.pending (t, rec.id) =
        if t = rec.nextAttemptAtMs then some (rec.stored (n + k)) else rows.pending (t, rec.id) := by
  induction recs generalizing n rows k with
  | nil => cases hk
  | cons rec' recs ih =>
    rw [map_cons, nodup_cons] at hnodup
    simp only [foldl_recordOps_cons]
    cases k with
    | zero =>
      cases hk
      have hrec : ∀ k < recs.length, (aggregate, n + 0) ≠ (aggregate, n + 1 + k) := fun k _ heq => by
        have := congrArg Prod.snd heq
        simp only at this
        omega
      rw [(recordOps_of_notMem hnodup.1 _).1, recordOps_records_of_ne hrec]
      refine ⟨update_self .., update_self .., fun t => ?_⟩
      rw [(recordOps_of_notMem hnodup.1 _).2]
      simp [Rows.store, update_apply]
    | succ k =>
      have hne : rec.id ≠ rec'.id := fun heq =>
        hnodup.1 (heq ▸ mem_map_of_mem (mem_of_getElem? hk))
      obtain ⟨hids, hrecords, hpending⟩ := ih hnodup.2 hk (rows.store aggregate n rec') (n := n + 1)
      rw [show n + 1 + k = n + (k + 1) by omega] at hids hrecords hpending
      refine ⟨hids, hrecords, fun t => ?_⟩
      rw [hpending t]
      simp [Rows.store, hne]

end

/-- What a batch with distinct ids makes of the outbox. -/
structure Stored (rows rows' : Rows I) (aggregate : Id) (cur : Option ℕ) (recs : List OutboxRecord) : Prop where
  seqs : rows'.seqs = if recs = [] then rows.seqs
    else update rows.seqs aggregate (some (cur.getD 0 + recs.length))
  ids : ∀ id, id ∉ recs.map OutboxRecord.id → rows'.ids id = rows.ids id
  records : ∀ key, (∀ k < recs.length, key ≠ (aggregate, cur.getD 0 + 1 + k)) → rows'.records key = rows.records key
  pending : ∀ t id, id ∉ recs.map OutboxRecord.id → rows'.pending (t, id) = rows.pending (t, id)
  fresh : (recs.map OutboxRecord.id).Nodup → ∀ k rec, recs[k]? = some rec →
    rows'.ids rec.id = some (aggregate, cur.getD 0 + 1 + k) ∧
      rows'.records (aggregate, cur.getD 0 + 1 + k) = some (rec.stored (cur.getD 0 + 1 + k)) ∧
      ∀ t, rows'.pending (t, rec.id) =
        if t = rec.nextAttemptAtMs then some (rec.stored (cur.getD 0 + 1 + k)) else rows.pending (t, rec.id)

variable {cur : Option ℕ} {r : Request I} {op : Op I} {c : Call I} {id : Id} {rows rows' : Rows I} {aggregate : Id}

variable {recs : List OutboxRecord}

lemma Stored.key_cases (h : Stored rows rows' aggregate cur recs) (key : Id × ℕ) :
    rows'.records key = rows.records key ∨ ∃ k rec, recs[k]? = some rec ∧ key = (aggregate, cur.getD 0 + 1 + k) := by
  by_cases hk : ∀ k < recs.length, key ≠ (aggregate, cur.getD 0 + 1 + k)
  · exact .inl (h.records key hk)
  · push Not at hk
    obtain ⟨k, hlt, heq⟩ := hk
    exact .inr ⟨k, recs[k], getElem?_eq_getElem hlt, heq⟩

/-- The batch of records that the request stores: its aggregate, the counter that it read and the records. -/
def Request.stores : Request I → Option (Id × Option ℕ × List OutboxRecord)
  | append rec cur => some (rec.aggregateId, cur, [rec])
  | commit inst _ recs cur _ => some (batchAggregate inst recs, cur, recs)
  | fenced g _ recs cur _ => some (batchAggregate g.inst recs, cur, recs)
  | _ => none

lemma stored_outboxOps (rev : ℕ) (inst : Id) (cur : Option ℕ) (recs : List OutboxRecord) (rows : Rows I) :
    Stored rows ((outboxOps recs (cur.getD 0 + 1)).foldl (Rows.apply rev) rows)
      (batchAggregate inst recs) cur recs := by
  cases recs with
  | nil => exact ⟨rfl, fun _ _ => rfl, fun _ _ => rfl, fun _ _ _ => rfl, fun _ k rec hk => by cases hk⟩
  | cons first rest =>
    -- the counter first, then the records
    show Stored rows ((recordOps first.aggregateId (cur.getD 0 + 1) (first :: rest)).foldl (Rows.apply rev)
      (rows.apply rev (.putSeq first.aggregateId (cur.getD 0 + 1 + (first :: rest).length - 1)))) first.aggregateId cur
        _
    refine ⟨?_, fun id hid => ?_, fun key hkey => ?_, fun t id hid => ?_, fun hnodup k rec hk => ?_⟩
    · rw [recordOps_seqs, if_neg (cons_ne_nil _ _)]
      simp only [Rows.apply]
      congr 2
      omega
    · exact (recordOps_of_notMem hid _).1
    · exact recordOps_records_of_ne hkey _
    · exact (recordOps_of_notMem hid _).2 t
    · exact recordOps_getElem hnodup hk _

lemma request_stores (h : rows.request r = some rows') (hs : r.stores = some (aggregate, cur, recs)) :
    (recs ≠ [] → rows.seqs aggregate = cur) ∧ (∀ rec ∈ recs, rows.ids rec.id = none) ∧
      Stored rows rows' aggregate cur recs := by
  obtain ⟨hcmp, rfl⟩ := request_eq_some h
  -- the comparisons on the outbox's side are the same for all three
  have houtbox : (∀ c ∈ outboxCompares aggregate cur recs, rows.holds c = true) →
      (recs ≠ [] → rows.seqs aggregate = cur) ∧ ∀ rec ∈ recs, rows.ids rec.id = none := by
    intro hall
    refine ⟨fun hne => ?_, fun rec hrec => ?_⟩
    · have := hall (.seqValue aggregate cur) (by simp [outboxCompares, hne])
      simpa [Rows.holds] using this
    · have hne : recs ≠ [] := ne_nil_of_mem hrec
      have := hall (.idVersionZero rec.id)
        (by rw [outboxCompares, if_neg hne]; exact mem_cons_of_mem _ (mem_map_of_mem hrec))
      simpa [Rows.holds] using this
  cases r with
  | append rec cur' =>
    obtain ⟨rfl, rfl, rfl⟩ : rec.aggregateId = aggregate ∧ cur' = cur ∧
      [rec] = recs := by simpa [Request.stores] using hs
    obtain ⟨hseq, hids⟩ := houtbox hcmp
    have hst := stored_outboxOps (rows.revision + 1) "" cur' [rec] rows
    exact ⟨hseq, hids, hst.seqs, hst.ids, hst.records, hst.pending, hst.fresh⟩
  | commit inst value recs' cur' expected =>
    obtain ⟨rfl, rfl, rfl⟩ : batchAggregate inst recs' = aggregate ∧ cur' = cur ∧ recs' = recs := by
      simpa [Request.stores] using hs
    obtain ⟨hseq, hids⟩ := houtbox fun c hc => hcmp c (mem_append_left _ hc)
    have hst := stored_outboxOps (rows.revision + 1) inst cur' recs' (rows.apply (rows.revision + 1)
      (.putInstance inst value))
    exact ⟨hseq, hids, hst.seqs, hst.ids, hst.records, hst.pending, hst.fresh⟩
  | fenced g value recs' cur' expected =>
    obtain ⟨rfl, rfl, rfl⟩ : batchAggregate g.inst recs' = aggregate ∧ cur' = cur ∧ recs' = recs := by
      simpa [Request.stores] using hs
    obtain ⟨hseq, hids⟩ := houtbox fun c hc => hcmp c (mem_append_right _ hc)
    have hst := stored_outboxOps (rows.revision + 1) g.inst cur' recs'
      (rows.apply (rows.revision + 1) (.putInstance g.inst value))
    exact ⟨hseq, hids, hst.seqs, hst.ids, hst.records, hst.pending, hst.fresh⟩
  | acquire inst token lease => cases hs
  | rewrite rec oldPending again => cases hs
  | prune key rec => cases hs

/-- **What the other requests do to the outbox**: an acquisition nothing, a rewrite puts a record and moves its index
entry, and a prune removes the rows of the record that it compares. -/
lemma request_other (h : rows.request r = some rows') (hs : r.stores = none) :
    rows'.instances = rows.instances ∧ rows'.seqs = rows.seqs ∧
      ((rows'.ids = rows.ids ∧ rows'.records = rows.records ∧ rows'.pending = rows.pending ∧
          ∃ inst token lease, r = .acquire inst token lease) ∨
        (∃ rec oldPending again, r = .rewrite rec oldPending again ∧ rows'.ids = rows.ids ∧
          rows'.records = update rows.records (rec.aggregateId, rec.sequence) (some rec) ∧
          rows'.pending = (let cleared := update rows.pending (oldPending, rec.id) none
            if again then update cleared (rec.nextAttemptAtMs, rec.id) (some rec) else cleared)) ∨
        ∃ key rec, r = .prune key rec ∧ rows.records key = some rec ∧
          rows'.ids = update rows.ids rec.id none ∧
          rows'.records = update rows.records key none ∧
          rows'.pending = update rows.pending (rec.nextAttemptAtMs, rec.id) none) := by
  obtain ⟨hcmp, rfl⟩ := request_eq_some h
  cases r with
  | acquire inst token lease => exact ⟨rfl, rfl, .inl ⟨rfl, rfl, rfl, inst, token, lease, rfl⟩⟩
  | append rec cur => cases hs
  | commit inst value recs cur expected => cases hs
  | fenced g value recs cur expected => cases hs
  | rewrite rec oldPending again =>
    cases again <;> exact ⟨rfl, rfl, .inr (.inl ⟨rec, oldPending, _, rfl, rfl, rfl, rfl⟩)⟩
  | prune key rec =>
    have hrow := hcmp (.recordValue key rec) (by simp [Request.compares])
    exact ⟨rfl, rfl, .inr (.inr ⟨key, rec, rfl, by simpa [Rows.holds] using hrow, rfl, rfl, rfl⟩)⟩

/-! ### The history of the outbox -/

/-- The event ids that a request stores, each with the aggregate and the sequence number it gets. -/
def Request.assigned (r : Request I) : List (Id × Id × ℕ) :=
  match r.stores with
  | some (aggregate, cur, recs) => recs.mapIdx fun k rec => (rec.id, aggregate, cur.getD 0 + 1 + k)
  | none => []

def assignments (history : List (Request I)) : List (Id × Id × ℕ) := history.flatMap Request.assigned

/-- The sequence numbers of the aggregate, in the order they were given. -/
def numbers (aggregate : Id) (history : List (Request I)) : List ℕ :=
  ((assignments history).filter fun x => x.2.1 = aggregate).map fun x => x.2.2

def Pruned (id : Id) (history : List (Request I)) : Prop := ∃ key rec, .prune key rec ∈ history ∧ rec.id = id

lemma assignments_append (history : List (Request I)) (r : Request I) :
    assignments (history ++ [r]) = assignments history ++ r.assigned := by
  simp [assignments]

variable {x : Id × Id × ℕ} {history : List (Request I)}

lemma mem_assignments_append (r : Request I) (h : x ∈ assignments history) : x ∈ assignments (history ++ [r]) := by
  rw [assignments_append]
  exact mem_append_left _ h

lemma Pruned.append {id : Id} (h : Pruned id history) (r : Request I) :
    Pruned id (history ++ [r]) := by
  obtain ⟨key, rec, hmem, hid⟩ := h
  exact ⟨key, rec, mem_append_left _ hmem, hid⟩

lemma mem_assigned (hs : r.stores = some (aggregate, cur, recs)) :
    x ∈ r.assigned ↔ ∃ k rec, recs[k]? = some rec ∧ x = (rec.id, aggregate, cur.getD 0 + 1 + k) := by
  simp only [Request.assigned, hs, mem_mapIdx]
  constructor
  · rintro ⟨k, hk, rfl⟩
    exact ⟨k, recs[k], getElem?_eq_getElem hk, rfl⟩
  · rintro ⟨k, rec, hk, rfl⟩
    obtain ⟨hlt, rfl⟩ := List.getElem?_eq_some_iff.1 hk
    exact ⟨k, hlt, rfl⟩

lemma numbers_request (hs : r.stores = some (aggregate, cur, recs)) (a : Id) :
    (r.assigned.filter fun x => x.2.1 = a).map (fun x => x.2.2) =
      if aggregate = a then List.range' (cur.getD 0 + 1) recs.length else [] := by
  simp only [Request.assigned, hs]
  split
  · next ha =>
    subst ha
    rw [filter_eq_self.2]
    · exact ext_getElem (by simp) fun k _ _ => by simp
    · intro x hx
      obtain ⟨k, hk, rfl⟩ := mem_mapIdx.1 hx
      simp
  · next ha =>
    rw [filter_eq_nil_iff.2]
    · rfl
    · intro x hx
      obtain ⟨k, hk, rfl⟩ := mem_mapIdx.1 hx
      simpa using ha

lemma numbers_append (a : Id) (history : List (Request I)) (r : Request I) :
    numbers a (history ++ [r]) = numbers a history ++ (r.assigned.filter fun x => x.2.1 = a).map fun x => x.2.2 := by
  rw [numbers, assignments_append, filter_append, map_append, numbers]

lemma length_assigned_le_one
    (hs : r.stores = some (aggregate, cur, recs)) (hnodup : (recs.map OutboxRecord.id).Nodup) (id : Id) :
    (r.assigned.filter fun x => x.1 = id).length ≤ 1 := by
  have hmap : r.assigned.map Prod.fst = recs.map OutboxRecord.id := by
    simp only [Request.assigned, hs]
    exact ext_getElem (by simp) fun k _ _ => by simp
  have hsub : ((r.assigned.filter fun x => x.1 = id).map Prod.fst).Nodup :=
    (hmap ▸ hnodup).sublist (filter_sublist.map _)
  have hrep : (r.assigned.filter fun x => x.1 = id).map Prod.fst =
      replicate (r.assigned.filter fun x => x.1 = id).length id := by
    refine eq_replicate_iff.2 ⟨length_map .., fun y hy => ?_⟩
    obtain ⟨x, hx, rfl⟩ := mem_map.1 hy
    simpa using (mem_filter.1 hx).2
  rw [hrep] at hsub
  exact nodup_replicate.1 hsub

/-! ### The rows against the history -/

/-- A request that fits the history: what it stores has distinct ids and one aggregate, and what it rewrites was stored
under its number. -/
def Request.Sound (history : List (Request I)) (r : Request I) : Prop :=
  (∀ aggregate cur recs, r.stores = some (aggregate, cur, recs) →
    (recs.map OutboxRecord.id).Nodup ∧ ∀ rec ∈ recs, rec.aggregateId = aggregate) ∧
  ∀ rec oldPending again, r = .rewrite rec oldPending again →
    (rec.id, rec.aggregateId, rec.sequence) ∈ assignments history

/-- The counters, records and ids of the rows are those of the history. -/
structure Ledger (rows : Rows I) (history : List (Request I)) : Prop where
  numbered : ∀ aggregate, numbers aggregate history = List.range' 1 ((rows.seqs aggregate).getD 0)
  records : ∀ key rec, rows.records key = some rec →
    key = (rec.aggregateId, rec.sequence) ∧ (rec.id, key) ∈ assignments history
  present : ∀ id key, (id, key) ∈ assignments history → Pruned id history ∨ ∃ rec, rows.records key = some rec
  ids : ∀ id key, rows.ids id = some key → (id, key) ∈ assignments history
  known : ∀ id key, (id, key) ∈ assignments history → Pruned id history ∨ rows.ids id = some key
  once : ∀ id, Pruned id history ∨ ((assignments history).filter fun x => x.1 = id).length ≤ 1

lemma ledger_empty : Ledger (Rows.empty I) [] where
  numbered := fun _ => rfl
  records := fun _ _ h => by cases h
  present := fun _ _ h => absurd h not_mem_nil
  ids := fun _ _ h => by cases h
  known := fun _ _ h => absurd h not_mem_nil
  once := fun _ => .inr (Nat.zero_le _)

section

variable {rows rows' : Rows I} {history : List (Request I)}

variable {id : Id} {key : Id × ℕ} {r : Request I}

lemma Ledger.bound (h : Ledger rows history) (hmem : (id, key) ∈ assignments history) :
    1 ≤ key.2 ∧ key.2 ≤ (rows.seqs key.1).getD 0 := by
  have hnum : key.2 ∈ numbers key.1 history :=
    mem_map.2 ⟨(id, key), mem_filter.2 ⟨hmem, by simp⟩, rfl⟩
  rw [h.numbered, mem_range'_1] at hnum
  omega

lemma Ledger.id_eq (h : Ledger rows history) {id' : Id} (h₁ : (id, key) ∈ assignments history)
    (h₂ : (id', key) ∈ assignments history) : id = id' := by
  have hnodup : (numbers key.1 history).Nodup := by
    rw [h.numbered]
    exact nodup_range'
  have := inj_on_of_nodup_map hnodup (mem_filter.2 ⟨h₁, by simp⟩) (mem_filter.2 ⟨h₂, by simp⟩) rfl
  exact congrArg Prod.fst this

lemma Ledger.key_eq (h : Ledger rows history) (hid : ¬ Pruned id history) {key' : Id × ℕ}
    (h₁ : (id, key) ∈ assignments history) (h₂ : (id, key') ∈ assignments history) : key = key' := by
  rcases h.known id key h₁ with hp | hk
  · exact absurd hp hid
  rcases h.known id key' h₂ with hp | hk'
  · exact absurd hp hid
  exact Option.some.inj (hk.symm.trans hk')

lemma Ledger.congr (h : Ledger rows history) (hseqs : rows'.seqs = rows.seqs) (hids : rows'.ids = rows.ids)
    (hrecords : rows'.records = rows.records) : Ledger rows' history where
  numbered := by rw [hseqs]; exact h.numbered
  records := by rw [hrecords]; exact h.records
  present := by rw [hrecords]; exact h.present
  ids := by rw [hids]; exact h.ids
  known := by rw [hids]; exact h.known
  once := h.once

lemma Request.assigned_eq_nil (h : r.stores = none) : r.assigned = [] := by
  simp [Request.assigned, h]

lemma ledger_stores (h : Ledger rows history) {aggregate : Id} {cur : Option ℕ}
    {recs : List OutboxRecord} (hreq : rows.request r = some rows') (hs : r.stores = some (aggregate, cur, recs))
    (hnodup : (recs.map OutboxRecord.id).Nodup) (hagg : ∀ rec ∈ recs, rec.aggregateId = aggregate) :
    Ledger rows' (history ++ [r]) := by
  obtain ⟨hseq, hfree, hst⟩ := request_stores hreq hs
  have hfresh := hst.fresh hnodup
  have hnew : ∀ {k rec}, recs[k]? = some rec →
      (rec.id, aggregate, cur.getD 0 + 1 + k) ∈ assignments (history ++ [r]) := by
    intro k rec hk
    rw [assignments_append]
    exact mem_append_right _ ((mem_assigned hs).2 ⟨k, rec, hk, rfl⟩)
  -- an id of the batch was not known, so whatever stored it before was pruned
  have hold : ∀ {id key}, id ∈ recs.map OutboxRecord.id → (id, key) ∈ assignments history → Pruned id history := by
    intro id key hid hmem
    obtain ⟨rec, hrec, rfl⟩ := mem_map.1 hid
    rcases h.known _ _ hmem with hp | hknown
    · exact hp
    · rw [hfree rec hrec] at hknown
      cases hknown
  refine ⟨fun a => ?_, fun key rec hrow => ?_, fun id key hmem => ?_, fun id key hrow => ?_, fun id key hmem => ?_,
    fun id => ?_⟩
  · rw [numbers_append, numbers_request hs, h.numbered, hst.seqs]
    by_cases hrecs : recs = []
    · simp [hrecs]
    rw [if_neg hrecs]
    by_cases ha : aggregate = a
    · subst ha
      rw [if_pos rfl, update_self, hseq hrecs, Nat.add_comm _ 1, range'_append_1]
      rfl
    · rw [if_neg ha, update_of_ne (Ne.symm ha), append_nil]
  · rcases hst.key_cases key with hk | ⟨k, rec', hk, rfl⟩
    · rw [hk] at hrow
      obtain ⟨heq, hmem⟩ := h.records key rec hrow
      exact ⟨heq, mem_assignments_append r hmem⟩
    · rw [(hfresh k rec' hk).2.1] at hrow
      cases hrow
      refine ⟨?_, show (rec'.id, _) ∈ _ from hnew hk⟩
      rw [← hagg rec' (mem_of_getElem? hk)]
      rfl
  · rw [assignments_append, mem_append] at hmem
    rcases hmem with hmem | hmem
    · rcases hst.key_cases key with hk | ⟨k, rec', hk, rfl⟩
      · rw [hk]
        exact (h.present id key hmem).imp_left fun hp => hp.append r
      · exact .inr ⟨_, (hfresh k rec' hk).2.1⟩
    · obtain ⟨k, rec, hk, heq⟩ := (mem_assigned hs).1 hmem
      cases heq
      exact .inr ⟨_, (hfresh k rec hk).2.1⟩
  · by_cases hid : id ∈ recs.map OutboxRecord.id
    · obtain ⟨rec, hrec, rfl⟩ := mem_map.1 hid
      obtain ⟨k, hk⟩ := mem_iff_getElem?.1 hrec
      rw [(hfresh k rec hk).1] at hrow
      cases hrow
      exact hnew hk
    · rw [hst.ids id hid] at hrow
      exact mem_assignments_append r (h.ids id key hrow)
  · rw [assignments_append, mem_append] at hmem
    rcases hmem with hmem | hmem
    · by_cases hid : id ∈ recs.map OutboxRecord.id
      · exact .inl ((hold hid hmem).append r)
      · rw [hst.ids id hid]
        exact (h.known id key hmem).imp_left fun hp => hp.append r
    · obtain ⟨k, rec, hk, heq⟩ := (mem_assigned hs).1 hmem
      cases heq
      exact .inr (hfresh k rec hk).1
  · by_cases hp : Pruned id history
    · exact .inl (hp.append r)
    refine .inr ?_
    rw [assignments_append, filter_append, length_append]
    by_cases hid : id ∈ recs.map OutboxRecord.id
    · have hnone : (assignments history).filter (fun x => x.1 = id) = [] := by
        refine filter_eq_nil_iff.2 fun x hx hxid => hp ?_
        obtain rfl : x.1 = id := by simpa using hxid
        exact hold hid hx
      rw [hnone]
      simpa using length_assigned_le_one hs hnodup id
    · have hnone : r.assigned.filter (fun x => x.1 = id) = [] := by
        refine filter_eq_nil_iff.2 fun x hx hxid => hid ?_
        obtain ⟨k, rec, hk, rfl⟩ := (mem_assigned hs).1 hx
        obtain rfl : rec.id = id := by simpa using hxid
        exact mem_map_of_mem (mem_of_getElem? hk)
      rw [hnone]
      simpa using (h.once id).resolve_left hp

lemma ledger_request (h : Ledger rows history) (hr : r.Sound history)
    (hreq : rows.request r = some rows') : Ledger rows' (history ++ [r]) := by
  cases hs : r.stores with
  | some batch =>
    obtain ⟨aggregate, cur, recs⟩ := batch
    obtain ⟨hnodup, hagg⟩ := hr.1 aggregate cur recs hs
    exact ledger_stores h hreq hs hnodup hagg
  | none =>
    have hassign : assignments (history ++ [r]) = assignments history := by
      rw [assignments_append, Request.assigned_eq_nil hs, append_nil]
    obtain ⟨-, hseqs, hcases⟩ := request_other hreq hs
    have hnumbered : ∀ a, numbers a (history ++ [r]) = List.range' 1 ((rows'.seqs a).getD 0) := by
      intro a
      rw [numbers, hassign, hseqs]
      exact h.numbered a
    have hpruned : ∀ {id : Id} {p : Prop}, Pruned id history ∨ p → Pruned id (history ++ [r]) ∨ p :=
      fun h => h.imp_left fun hp => hp.append r
    rcases hcases with ⟨hids, hrecords, -, -⟩ | ⟨rec, oldPending, again, rfl, hids, hrecords, -⟩ |
      ⟨key, rec, rfl, hrow, hids, hrecords, -⟩
    · refine ⟨hnumbered, ?_, ?_, ?_, ?_, ?_⟩ <;> simp only [hassign, hids, hrecords]
      · exact h.records
      · exact fun id key hmem => hpruned (h.present id key hmem)
      · exact h.ids
      · exact fun id key hmem => hpruned (h.known id key hmem)
      · exact fun id => hpruned (h.once id)
    · refine ⟨hnumbered, ?_, ?_, ?_, ?_, ?_⟩ <;> simp only [hassign, hids, hrecords]
      · intro key rec' hrow
        rw [update_apply] at hrow
        split at hrow
        · next hkey =>
          cases hrow
          exact ⟨hkey, hkey ▸ hr.2 _ _ _ rfl⟩
        · exact h.records key rec' hrow
      · intro id key hmem
        rw [update_apply]
        split
        · exact .inr ⟨rec, rfl⟩
        · exact hpruned (h.present id key hmem)
      · exact h.ids
      · exact fun id key hmem => hpruned (h.known id key hmem)
      · exact fun id => hpruned (h.once id)
    · have hgone : Pruned rec.id (history ++ [.prune key rec]) :=
        ⟨key, rec, mem_append_right _ (mem_singleton_self _), rfl⟩
      refine ⟨hnumbered, ?_, ?_, ?_, ?_, ?_⟩ <;> simp only [hassign, hids, hrecords]
      · intro key' rec' hrow'
        rw [update_apply] at hrow'
        split at hrow'
        · cases hrow'
        · exact h.records key' rec' hrow'
      · intro id key' hmem
        rw [update_apply]
        split
        · -- the number of the removed record is the number of its event only
          next hkey =>
          subst hkey
          exact .inl (h.id_eq hmem (h.records _ rec hrow).2 ▸ hgone)
        · exact hpruned (h.present id key' hmem)
      · intro id key' hid
        rw [update_apply] at hid
        split at hid
        · cases hid
        · exact h.ids id key' hid
      · intro id key' hmem
        rw [update_apply]
        split
        · next hid => exact .inl (hid ▸ hgone)
        · exact hpruned (h.known id key' hmem)
      · exact fun id => hpruned (h.once id)

end

/-! ### The calls against the history -/

def Op.records : Op I → List OutboxRecord
  | append rec => [rec]
  | commitStateAndOutboxBatch _ _ recs _ => recs
  | fencedCommit _ _ recs _ => recs
  | _ => []

/-- The instance that a call writes along with its events. -/
def Op.instanceWrite : Op I → Option (Id × I)
  | commitStateAndOutboxBatch inst value _ _ => some (inst, value)
  | fencedCommit g value _ _ => some (g.inst, value)
  | _ => none

def Op.isBatch (op : Op I) : Bool := op.instanceWrite.isSome

/-- What callers promise: the records of a call are of one aggregate, and event ids are unique, except that an event
can be appended again and a batch committed again. -/
def Contract (w : World I) (a : Action I) : Prop :=
  ∀ op ∈ a.started, (op.records.map OutboxRecord.id).Nodup ∧ (∀ rec ∈ op.records, rec.aggregateId = op.aggregate) ∧
    ∀ op' ∈ w.ops, op' = op ∨
      ((op.isBatch || op'.isBatch) = true → ∀ rec ∈ op.records, ∀ rec' ∈ op'.records, rec.id ≠ rec'.id)

instance [DecidableEq I] (w : World I) (a : Action I) : Decidable (Contract w a) :=
  inferInstanceAs (Decidable (∀ op ∈ a.started, (op.records.map OutboxRecord.id).Nodup ∧
    (∀ rec ∈ op.records, rec.aggregateId = op.aggregate) ∧ ∀ op' ∈ w.ops, op' = op ∨
      ((op.isBatch || op'.isBatch) = true → ∀ rec ∈ op.records, ∀ rec' ∈ op'.records, rec.id ≠ rec'.id)))

lemma Op.Sends.stores_eq (h : op.Sends r) (hs : r.stores = some (aggregate, cur, recs)) :
    op.records = recs ∧ op.aggregate = aggregate := by
  cases h with
  | append cur' =>
    obtain ⟨rfl, -, rfl⟩ : _ = aggregate ∧ cur' = cur ∧ _ = recs := by simpa [Request.stores] using hs
    exact ⟨rfl, rfl⟩
  | commit cur' =>
    obtain ⟨rfl, -, rfl⟩ : _ = aggregate ∧ cur' = cur ∧ _ = recs := by simpa [Request.stores] using hs
    exact ⟨rfl, rfl⟩
  | fenced cur' =>
    obtain ⟨rfl, -, rfl⟩ : _ = aggregate ∧ cur' = cur ∧ _ = recs := by simpa [Request.stores] using hs
    exact ⟨rfl, rfl⟩
  | acquire => cases hs
  | mark rec => cases hs
  | prune rec hc => cases hs

lemma Call.read_rewrite {rows : Rows I} {rec' : OutboxRecord} {oldPending : ℤ} {again : Bool}
    (h : c.read rows = .send (.rewrite rec' oldPending again)) :
    ∃ key m id rec, c.op = .mark m id ∧ rows.records key = some rec ∧ rec' = m.rewrite rec ∧
      oldPending = rec.nextAttemptAtMs ∧ again = m.again := by
  unfold Call.read at h
  split at h
  · cases h
  · split at h
    · exact absurd h (c.missing_ne_send _)
    · cases h
  · next key rest _ =>
    split at h
    · exact absurd h (c.missing_ne_send _)
    next rec hrow =>
    unfold Call.present at h
    split at h
    · split at h <;> cases h
    · next m id hop =>
      obtain ⟨rfl, rfl, rfl⟩ := Request.rewrite.inj (Next.send.inj h)
      exact ⟨key, m, id, rec, hop, hrow, rfl, rfl, rfl⟩
    · split at h <;> cases h
    · cases h
  · unfold Call.afterSequence at h
    split at h <;> cases h
  · split at h
    · split at h <;> cases h
    · cases h
  · cases h
  · cases h

@[simp] lemma Mark.rewrite_frame (m : Mark) (rec : OutboxRecord) : (m.rewrite rec).id = rec.id ∧
    (m.rewrite rec).aggregateId = rec.aggregateId ∧ (m.rewrite rec).sequence = rec.sequence := by
  cases m <;> exact ⟨rfl, rfl, rfl⟩

/-- What a batch call knows: the record it looks at is one of its own, and its success is in the history. -/
def Call.Knows (history : List (Request I)) (c : Call I) : Prop :=
  match c.phase with
  | .readId ids => ∀ id ∈ ids, id ∈ c.op.records.map OutboxRecord.id
  | .readRecord key rest => (∀ id ∈ rest, id ∈ c.op.records.map OutboxRecord.id) ∧
    ∃ id ∈ c.op.records.map OutboxRecord.id, (id, key) ∈ assignments history
  | .finished (.committed true) => ∃ r ∈ history, c.op.Sends r
  | _ => True

/-- The calls and the rows of a run against its history. -/
structure OutboxInv (w : World I) : Prop where
  byCalls : SentByCalls w
  wellFormed : ∀ op ∈ w.ops, (op.records.map OutboxRecord.id).Nodup ∧ ∀ rec ∈ op.records, rec.aggregateId = op.aggregate
  apart : w.ops.Pairwise fun op op' => op = op' ∨
    ((op.isBatch || op'.isBatch) = true → ∀ rec ∈ op.records, ∀ rec' ∈ op'.records, rec.id ≠ rec'.id)
  sound : ∀ x ∈ w.sent, x.2.Sound w.history
  ledger : Ledger w.rows w.history
  sent : ∀ r ∈ w.history, ∃ op ∈ w.ops, op.Sends r
  knows : ∀ c ∈ w.calls, c.op.isBatch = true → c.Knows w.history

lemma outboxInv_start : OutboxInv (World.start I) where
  byCalls := fun _ hx => absurd hx not_mem_nil
  wellFormed := fun _ h => absurd h not_mem_nil
  apart := List.Pairwise.nil
  sound := fun _ hx => absurd hx not_mem_nil
  ledger := ledger_empty
  sent := fun _ h => absurd h not_mem_nil
  knows := fun _ h => absurd h not_mem_nil

lemma mem_history_step (h : r ∈ w.history) (a : Action I) : r ∈ (step w a).1.history := by
  rcases step_rows w a with ⟨-, hhist, -⟩ | ⟨_, _, -, -, hhist, -⟩ | ⟨_, -, hhist, -⟩
  · rwa [hhist]
  · rw [hhist]
    exact mem_append_left _ h
  · rwa [hhist]

lemma mem_history_of_out {a : Action I} (h : (step w a).2 = some r) : r ∈ (step w a).1.history := by
  rcases step_rows w a with ⟨-, -, hout⟩ | ⟨_, r', -, -, hhist, hout⟩ | ⟨_, -, -, hout⟩
  · cases hout.symm.trans h
  · cases hout.symm.trans h
    rw [hhist]
    exact mem_append_right _ (mem_singleton_self _)
  · cases hout.symm.trans h

lemma mem_ops_step (h : op ∈ w.ops) (a : Action I) : op ∈ (step w a).1.ops := by
  rcases step_ops w a with hops | ⟨_, -, hops⟩
  · rwa [hops]
  · rw [hops]
    exact mem_append_left _ h

section

variable {history history' : List (Request I)}

lemma assignments_mono (h : ∀ r ∈ history, r ∈ history') (hx : x ∈ assignments history) :
    x ∈ assignments history' := by
  obtain ⟨r, hr, hmem⟩ := mem_flatMap.1 hx
  exact mem_flatMap.2 ⟨r, h r hr, hmem⟩

lemma Request.Sound.mono {r : Request I} (hr : r.Sound history) (h : ∀ r ∈ history, r ∈ history') :
    r.Sound history' :=
  ⟨hr.1, fun rec oldPending again heq => assignments_mono h (hr.2 rec oldPending again heq)⟩

lemma Call.Knows.mono {c : Call I} (hc : c.Knows history) (h : ∀ r ∈ history, r ∈ history') : c.Knows history' := by
  unfold Call.Knows at hc ⊢
  split
  · next hp => simpa only [hp] using hc
  · next hp =>
    simp only [hp] at hc
    obtain ⟨hrest, id, hid, hmem⟩ := hc
    exact ⟨hrest, id, hid, assignments_mono h hmem⟩
  · next hp =>
    simp only [hp] at hc
    obtain ⟨r, hr, hsends⟩ := hc
    exact ⟨r, h r hr, hsends⟩
  · trivial

end

/-- Two calls of which one is a batch and that store one event are one operation. -/
lemma OutboxInv.op_eq (h : OutboxInv w) {op' : Op I} (hop : op ∈ w.ops) (hop' : op' ∈ w.ops)
    (hb : op.isBatch = true) (hid : id ∈ op.records.map OutboxRecord.id)
    (hid' : id ∈ op'.records.map OutboxRecord.id) : op = op' := by
  have : Std.Symm fun op op' : Op I => op = op' ∨
      ((op.isBatch || op'.isBatch) = true → ∀ rec ∈ op.records, ∀ rec' ∈ op'.records, rec.id ≠ rec'.id) :=
    ⟨fun a b hab => hab.imp Eq.symm fun hab hb x hx y hy heq => hab (Bool.or_comm .. ▸ hb) y hy x hx heq.symm⟩
  by_contra hne
  obtain ⟨rec, hrec, rfl⟩ := mem_map.1 hid
  obtain ⟨rec', hrec', heq⟩ := mem_map.1 hid'
  exact (h.apart.forall hop hop' hne).resolve_left hne (by rw [hb]; rfl) rec hrec rec' hrec' heq.symm

lemma OutboxInv.sends_of_assigned (h : OutboxInv w) (hop : op ∈ w.ops) (hb : op.isBatch = true)
    (hid : id ∈ op.records.map OutboxRecord.id) {key : Id × ℕ} (hmem : (id, key) ∈ assignments w.history) :
    ∃ r ∈ w.history, op.Sends r := by
  obtain ⟨r, hr, hx⟩ := mem_flatMap.1 hmem
  obtain ⟨op', hop', hsends⟩ := h.sent r hr
  have hid' : id ∈ op'.records.map OutboxRecord.id := by
    cases hs : r.stores with
    | none =>
      rw [Request.assigned_eq_nil hs] at hx
      cases hx
    | some batch =>
      obtain ⟨aggregate, cur, recs⟩ := batch
      obtain ⟨k, rec, hk, heq⟩ := (mem_assigned hs).1 hx
      rw [(hsends.stores_eq hs).1, (Prod.mk.inj heq).1]
      exact mem_map_of_mem (mem_of_getElem? hk)
  obtain rfl := h.op_eq hop hop' hb hid hid'
  exact ⟨r, hr, hsends⟩

lemma Call.knows_missing (c : Call I) (n : ℕ) (history : List (Request I)) : (c.after n c.missing).Knows history := by
  unfold Call.missing
  split
  · split <;> trivial
  · split <;> trivial
  · trivial

lemma Call.knows_afterSequence (c : Call I) (n : ℕ) (cur : Option ℕ) (history : List (Request I)) :
    (c.after n (c.afterSequence cur)).Knows history := by
  unfold Call.afterSequence
  split <;> trivial

lemma OutboxInv.knows_read (h : OutboxInv w) (hc : c ∈ w.calls) (hb : c.op.isBatch = true) :
    (c.after w.sent.length (c.read w.rows)).Knows w.history := by
  have hknows := h.knows c hc hb
  have hop : c.op ∈ w.ops := mem_map_of_mem hc
  unfold Call.read
  split
  · exact hknows
  · next id rest hp =>
    simp only [Call.Knows, hp] at hknows
    split
    · exact c.knows_missing _ _
    · next key hkey =>
      exact ⟨fun id' hid' => hknows id' (mem_cons_of_mem _ hid'),
        id, hknows id mem_cons_self, h.ledger.ids id key hkey⟩
  · next key rest hp =>
    simp only [Call.Knows, hp] at hknows
    obtain ⟨hrest, id, hid, hmem⟩ := hknows
    split
    · exact c.knows_missing _ _
    next rec hrow =>
    unfold Call.present
    split
    · split
      · exact h.sends_of_assigned hop hb hid hmem
      · exact hrest
    · trivial
    · split <;> trivial
    · trivial
  · exact c.knows_afterSequence _ _ _
  · split
    · split <;> trivial
    · trivial
  · exact hknows
  · exact hknows

lemma OutboxInv.knows_moves (h : OutboxInv w) {j : ℕ} {c' : Call I} {a : Action I} (hc : w.calls[j]? = some c)
    (hb : c.op.isBatch = true) (hm : c.Moves w (step w a).2 j c') : c'.Knows (step w a).1.history := by
  have hmem := mem_of_getElem? hc
  have hmono : ∀ r ∈ w.history, r ∈ (step w a).1.history := fun r hr => mem_history_step hr a
  cases hm with
  | stay => exact (h.knows c hmem hb).mono hmono
  | read => exact (h.knows_read hmem hb).mono hmono
  | giveUp k hk => trivial
  | hear k b hk hout =>
    -- a success is the one of the call's own request
    have htrue : b = true → ∃ r ∈ (step w a).1.history, c.op.Sends r := by
      intro hb
      obtain ⟨r, hr, hsent⟩ := hout hb
      obtain ⟨d, hd, hsends⟩ := h.byCalls _ hsent
      cases hc.symm.trans hd
      exact ⟨r, mem_history_of_out hr, hsends⟩
    unfold Call.hear
    split
    · next hop => simp [hop, Op.isBatch, Op.instanceWrite] at hb
    · next hop => simp [hop, Op.isBatch, Op.instanceWrite] at hb
    · next inst value recs expected hop =>
      split
      · next hb => exact htrue hb
      split
      · split <;> trivial
      · simp only [Call.after, Call.Knows, hop, Op.records]
        exact fun id hid => hid
    · cases b with
      | true => exact htrue rfl
      | false => trivial
    · trivial
    · trivial

lemma outboxInv_step (a : Action I) (ha : Contract w a) (h : OutboxInv w) : OutboxInv (step w a).1 := by
  have hmono : ∀ r ∈ w.history, r ∈ (step w a).1.history := fun r hr => mem_history_step hr a
  refine ⟨sentByCalls_step h.byCalls a, ?_, ?_, ?_, ?_, ?_, ?_⟩
  · rcases step_ops w a with hops | ⟨op, rfl, hops⟩
    · rw [hops]
      exact h.wellFormed
    · rw [hops]
      exact forall_mem_append_one h.wellFormed ⟨(ha op rfl).1, (ha op rfl).2.1⟩
  · rcases step_ops w a with hops | ⟨op, rfl, hops⟩
    · rw [hops]
      exact h.apart
    · rw [hops]
      refine pairwise_append_one h.apart fun op' hop' => ((ha op rfl).2.2 op' hop').imp_right ?_
      exact fun hne hb rec hrec rec' hrec' heq => hne (Bool.or_comm .. ▸ hb) rec' hrec' rec hrec heq.symm
  · intro x hx
    rcases step_sent hx with hx | ⟨c, hc, hread⟩ | ⟨op, rfl, -, -, hbegin⟩
    · exact (h.sound x hx).mono hmono
    · have hop : c.op ∈ w.ops := mem_map_of_mem (mem_of_getElem? hc)
      refine Request.Sound.mono ⟨fun aggregate cur recs hs => ?_, fun rec oldPending again heq => ?_⟩ hmono
      · obtain ⟨rfl, rfl⟩ := (Call.read_sends hread).stores_eq hs
        exact h.wellFormed c.op hop
      · obtain ⟨key, m, id, rec', -, hrow, rfl, -, -⟩ := Call.read_rewrite (heq ▸ hread)
        obtain ⟨rfl, hmem⟩ := h.ledger.records key rec' hrow
        simpa using hmem
    · refine ⟨fun aggregate cur recs hs => ?_, fun rec oldPending again heq => ?_⟩
      · obtain ⟨rfl, rfl⟩ := (Op.begin_sends hbegin).stores_eq hs
        exact ⟨(ha op rfl).1, (ha op rfl).2.1⟩
      · rw [heq] at hbegin
        cases op <;> simp only [Op.begin, reduceCtorEq, Next.send.injEq] at hbegin
        split at hbegin <;> cases hbegin
  · rcases step_rows w a with ⟨hrows, hhist, -⟩ | ⟨i, r, hsent, hreq, hhist, -⟩ | ⟨lease, hrows, hhist, -⟩
    · rw [hrows, hhist]
      exact h.ledger
    · rw [hhist]
      exact ledger_request h.ledger (h.sound _ hsent) hreq
    · rw [hrows, hhist]
      exact h.ledger.congr rfl rfl rfl
  · intro r hr
    have hops : ∀ {r}, (∃ op ∈ w.ops, op.Sends r) → ∃ op ∈ (step w a).1.ops, op.Sends r := by
      rintro r ⟨op, hop, hs⟩
      exact ⟨op, mem_ops_step hop a, hs⟩
    rcases step_rows w a with ⟨-, hhist, -⟩ | ⟨i, r', hsent, -, hhist, -⟩ | ⟨lease, -, hhist, -⟩
    · exact hops (h.sent r (hhist ▸ hr))
    · rw [hhist, mem_append] at hr
      rcases hr with hr | hr
      · exact hops (h.sent r hr)
      · obtain rfl := mem_singleton.1 hr
        obtain ⟨c, hc, hsends⟩ := h.byCalls _ hsent
        exact hops ⟨c.op, mem_map_of_mem (mem_of_getElem? hc), hsends⟩
    · exact hops (h.sent r (hhist ▸ hr))
  · intro c' hc' hb
    rcases mem_step_calls hc' with ⟨j, c, hj, hmoves⟩ | ⟨op, rfl, -, rfl⟩
    · exact h.knows_moves hj (hmoves.op_eq ▸ hb) hmoves
    rw [Call.after_op] at hb
    cases op <;> simp only [Op.isBatch, Op.instanceWrite, Option.isSome_none, Bool.false_eq_true] at hb
    · trivial
    · unfold Op.begin
      dsimp only
      split <;> trivial

/-! ### The main theorem -/

/-- The rows of an instance and of all its events, numbered after `cur`. -/
def Rows.Written (rows : Rows I) (inst : Id) (value : I) (aggregate : Id) (cur : Option ℕ) (recs : List OutboxRecord) :
    Prop :=
  rows.instances inst = some (value, rows.revision) ∧
    (recs ≠ [] → rows.seqs aggregate = some (cur.getD 0 + recs.length)) ∧
    ∀ k rec, recs[k]? = some rec → rows.ids rec.id = some (aggregate, cur.getD 0 + 1 + k) ∧
      rows.records (aggregate, cur.getD 0 + 1 + k) = some (rec.stored (cur.getD 0 + 1 + k)) ∧
      rows.pending (rec.nextAttemptAtMs, rec.id) = some (rec.stored (cur.getD 0 + 1 + k))

/-- The step writes the call's instance with all its events, or it stores none of them; and it writes no instance but as
one of the calls does. -/
def Together (e : Event (World I) (Action I) (Option (Request I))) : Prop :=
  (∀ op ∈ e.before.ops, ∀ inst value, op.instanceWrite = some (inst, value) →
    (∃ cur, e.after.rows.Written inst value op.aggregate cur op.records) ∨
      ∀ rec ∈ op.records, e.after.rows.ids rec.id = e.before.rows.ids rec.id ∨ e.after.rows.ids rec.id = none) ∧
  (e.after.rows.instances = e.before.rows.instances ∨
    ∃ op ∈ e.before.ops, ∃ inst value cur, op.instanceWrite = some (inst, value) ∧
      e.after.rows.instances = update e.before.rows.instances inst (some (value, e.after.rows.revision)) ∧
      e.after.rows.Written inst value op.aggregate cur op.records)

lemma written_of_stores {inst aggregate : Id} {value : I}
    (hreq : rows.request r = some rows') (hs : r.stores = some (aggregate, cur, recs))
    (hnodup : (recs.map OutboxRecord.id).Nodup)
    (hinst : rows'.instances = update rows.instances inst (some (value, rows'.revision))) :
    rows'.Written inst value aggregate cur recs := by
  obtain ⟨-, -, hst⟩ := request_stores hreq hs
  refine ⟨by rw [hinst, update_self], fun hne => ?_, fun k rec hk => ?_⟩
  · rw [hst.seqs, if_neg hne, update_self]
  · obtain ⟨hids, hrecords, hpending⟩ := hst.fresh hnodup k rec hk
    exact ⟨hids, hrecords, (hpending _).trans (if_pos rfl)⟩

lemma Op.Sends.written (h : op.Sends r) {inst : Id} {value : I}
    (hop : op.instanceWrite = some (inst, value)) (hnodup : (op.records.map OutboxRecord.id).Nodup)
    (hreq : rows.request r = some rows') :
    rows'.instances = update rows.instances inst (some (value, rows'.revision)) ∧
      ∃ cur, rows'.Written inst value op.aggregate cur op.records := by
  have heq := (request_eq_some hreq).2
  cases h with
  | @commit inst' value' recs expected cur =>
    obtain ⟨rfl, rfl⟩ : inst' = inst ∧ value' = value := by simpa [Op.instanceWrite] using hop
    have hinst : rows'.instances = update rows.instances inst' (some (value', rows'.revision)) := by
      rw [heq]
      exact (foldl_outboxOps_frame recs (cur.getD 0 + 1) _ (rows.apply _ (.putInstance inst' value'))).1
    exact ⟨hinst, cur, written_of_stores hreq rfl hnodup hinst⟩
  | @fenced g value' recs expected cur =>
    obtain ⟨rfl, rfl⟩ : g.inst = inst ∧ value' = value := by simpa [Op.instanceWrite] using hop
    have hinst : rows'.instances = update rows.instances g.inst (some (value', rows'.revision)) := by
      rw [heq]
      exact (foldl_outboxOps_frame recs (cur.getD 0 + 1) _ (rows.apply _ (.putInstance g.inst value'))).1
    exact ⟨hinst, cur, written_of_stores hreq rfl hnodup hinst⟩
  | acquire => cases hop
  | append cur => cases hop
  | mark rec => cases hop
  | prune rec hcan => cases hop

lemma Op.Sends.instances_eq (h : op.Sends r) (hop : op.instanceWrite = none)
    (hreq : rows.request r = some rows') : rows'.instances = rows.instances := by
  cases h with
  | @append rec cur =>
    rw [(request_eq_some hreq).2]
    exact (foldl_outboxOps_frame [rec] (cur.getD 0 + 1) (rows.revision + 1) rows).1
  | commit cur => cases hop
  | fenced cur => cases hop
  | acquire => exact (request_other hreq rfl).1
  | mark rec => exact (request_other hreq rfl).1
  | prune rec hcan => exact (request_other hreq rfl).1

lemma ids_of_disjoint (hreq : rows.request r = some rows')
    (hid : ∀ aggregate cur recs, r.stores = some (aggregate, cur, recs) → id ∉ recs.map OutboxRecord.id) :
    rows'.ids id = rows.ids id ∨ rows'.ids id = none := by
  cases hs : r.stores with
  | some batch =>
    obtain ⟨aggregate, cur, recs⟩ := batch
    exact .inl ((request_stores hreq hs).2.2.ids id (hid aggregate cur recs hs))
  | none =>
    rcases (request_other hreq hs).2.2 with ⟨hids, -⟩ | ⟨_, _, _, -, hids, -⟩ | ⟨_, rec, -, -, hids, -⟩
    · exact .inl (by rw [hids])
    · exact .inl (by rw [hids])
    rw [hids, update_apply]
    split
    · exact .inr rfl
    · exact .inl rfl

/-- **All or nothing**: every step from a state of a run writes a batch as a whole or none of it. -/
lemma together_step (h : OutboxInv w) (a : Action I) : Together ⟨w, a, (step w a).2, (step w a).1⟩ := by
  rcases step_rows w a with ⟨hrows, -, -⟩ | ⟨i, r, hsent, hreq, -, -⟩ | ⟨lease, hrows, -, -⟩
  · exact ⟨fun _ _ _ _ _ => .inr fun rec _ => .inl (by rw [hrows]), .inl (by rw [hrows])⟩
  · obtain ⟨c, hc, hsends⟩ := h.byCalls _ hsent
    have hcop : c.op ∈ w.ops := mem_map_of_mem (mem_of_getElem? hc)
    refine ⟨fun op hop inst value hbatch => ?_, ?_⟩
    · by_cases heq : op = c.op
      · subst heq
        exact .inl (hsends.written hbatch (h.wellFormed _ hop).1 hreq).2
      · -- another call's events are not these
        refine .inr fun rec hrec => ids_of_disjoint hreq fun aggregate cur recs hs hid => heq ?_
        refine h.op_eq hop hcop (by rw [Op.isBatch, hbatch]; rfl) (mem_map_of_mem hrec) ?_
        rwa [(hsends.stores_eq hs).1]
    · cases hbatch : c.op.instanceWrite with
      | none => exact .inl (hsends.instances_eq hbatch hreq)
      | some x =>
        obtain ⟨hinst, cur, hwritten⟩ := hsends.written hbatch (h.wellFormed _ hcop).1 hreq
        exact .inr ⟨c.op, hcop, x.1, x.2, cur, hbatch, hinst, hwritten⟩
  · exact ⟨fun _ _ _ _ _ => .inr fun rec _ => .inl (by rw [hrows]; rfl), .inl (by rw [hrows]; rfl)⟩

def newRecord (id aggregateId : Id) (nowMs : ℤ) : OutboxRecord :=
  ⟨id, aggregateId, 0, nowMs, .pending, 0, nowMs, none⟩

/-- A batch of two events commits, its answer is lost, and the transaction arrives again; meanwhile another agent
appends an event to the aggregate and has to try twice, and then the batch is committed again. -/
def lostAnswerRun : List (Action ℕ) :=
  let batch := .commitStateAndOutboxBatch "order" 5 [newRecord "e1" "order" 10, newRecord "e2" "order" 10] none
  [.start batch, .start (.append (newRecord "a1" "order" 11)), .read 1, .read 0, .read 1, .deliver 0 false,
    .deliver 1 true, .deliver 0 true, .read 0, .read 0, .read 0, .read 0, .read 1, .read 1, .deliver 2 true,
    .start batch, .read 2, .deliver 3 true, .read 2, .read 2, .read 2, .read 2]

end Coord.Workflow
