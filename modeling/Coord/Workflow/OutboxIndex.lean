import Coord.Workflow.OutboxRuns

/-!
# The index of pending events

Relays read a record, deliver it, and rewrite it with its index entry: delivered, dead, or pending at a later time. The
transaction of a rewrite compares nothing, so it takes effect on whatever the record is by then.
-/

namespace Coord.Workflow

open Coord.Lib Function

variable {I : Type} {w : World I}

/-- The index has the pending records at their attempt times and nothing else, and every record is the one its id
points to. -/
structure IndexExact (rows : Rows I) : Prop where
  linked : ∀ key rec, rows.records key = some rec → rows.ids rec.id = some key
  exact : ∀ t id, (rows.pending (t, id)).isSome ↔
    ∃ key rec, rows.records key = some rec ∧ rec.id = id ∧ rec.status = .pending ∧ rec.nextAttemptAtMs = t

lemma indexExact_empty : IndexExact (Rows.empty I) where
  linked := fun _ _ h => by cases h
  exact := by
    refine fun _ _ => ⟨nofun, ?_⟩
    rintro ⟨_, _, h, _⟩
    cases h

section

variable {rows rows' : Rows I} {history : List (Request I)}

lemma IndexExact.congr (h : IndexExact rows) (hids : rows'.ids = rows.ids) (hrecords : rows'.records = rows.records)
    (hpending : rows'.pending = rows.pending) : IndexExact rows' where
  linked := by rw [hids, hrecords]; exact h.linked
  exact := by rw [hrecords, hpending]; exact h.exact

variable {key : Id × ℕ} {rec : OutboxRecord}

lemma IndexExact.isSome_iff (h : IndexExact rows) (hrow : rows.records key = some rec) (t : ℤ) :
    (rows.pending (t, rec.id)).isSome ↔ rec.status = .pending ∧ t = rec.nextAttemptAtMs := by
  rw [h.exact]
  constructor
  · rintro ⟨key', rec', hrow', hid, hstatus, rfl⟩
    obtain rfl : key = key' :=
      Option.some.inj ((h.linked key rec hrow).symm.trans (hid ▸ h.linked key' rec' hrow'))
    cases hrow.symm.trans hrow'
    exact ⟨hstatus, rfl⟩
  · rintro ⟨hstatus, rfl⟩
    exact ⟨key, rec, hrow, rfl, hstatus, rfl⟩

lemma IndexExact.pending_eq_none (h : IndexExact rows) {id : Id} (hid : rows.ids id = none) (t : ℤ) :
    rows.pending (t, id) = none := by
  by_contra hne
  obtain ⟨key, rec, hrow, rfl, -⟩ := (h.exact t id).1 (Option.isSome_iff_ne_none.2 hne)
  cases hid.symm.trans (h.linked key rec hrow)

variable {recs : List OutboxRecord}

lemma Ledger.ne_of_assigned (hl : Ledger rows history) {aggregate : Id} {cur : Option ℕ}
    (hseq : recs ≠ [] → rows.seqs aggregate = cur) {id : Id} (hmem : (id, key) ∈ assignments history) :
    ∀ k < recs.length, key ≠ (aggregate, cur.getD 0 + 1 + k) := by
  rintro k hk rfl
  have hbound := (hl.bound hmem).2
  rw [hseq (List.ne_nil_of_length_pos (by omega))] at hbound
  simp only at hbound
  omega

lemma indexExact_stores (h : IndexExact rows) (hl : Ledger rows history) {r : Request I} {aggregate : Id}
    {cur : Option ℕ} (hreq : rows.request r = some rows')
    (hs : r.stores = some (aggregate, cur, recs)) (hnodup : (recs.map OutboxRecord.id).Nodup) : IndexExact rows' := by
  obtain ⟨hseq, hfree, hst⟩ := request_stores hreq hs
  have hfresh := hst.fresh hnodup
  -- a row from before has a number up to the counter, and its id is not one of the batch
  have hold : ∀ {key rec}, rows.records key = some rec →
      rows'.records key = some rec ∧ rec.id ∉ recs.map OutboxRecord.id := by
    intro key rec hrow
    refine ⟨?_, fun hid => ?_⟩
    · rw [hst.records key (hl.ne_of_assigned hseq (hl.records key rec hrow).2)]
      exact hrow
    · obtain ⟨rec', hrec', heq⟩ := List.mem_map.1 hid
      cases (hfree rec' hrec').symm.trans (heq ▸ h.linked key rec hrow)
  have hcases : ∀ {key rec}, rows'.records key = some rec → rows.records key = some rec ∨
      ∃ k rec', recs[k]? = some rec' ∧ key = (aggregate, cur.getD 0 + 1 + k) ∧
        rec = rec'.stored (cur.getD 0 + 1 + k) := by
    intro key rec hrow
    rcases hst.key_cases key with hk | ⟨k, rec', hk, rfl⟩
    · exact .inl (hk ▸ hrow)
    · exact .inr ⟨k, rec', hk, rfl, Option.some.inj (hrow.symm.trans (hfresh k rec' hk).2.1)⟩
  refine ⟨fun key rec hrow => ?_, fun t id => ?_⟩
  · rcases hcases hrow with hrow | ⟨k, rec', hk, rfl, rfl⟩
    · rw [hst.ids _ (hold hrow).2]
      exact h.linked key rec hrow
    · exact (hfresh k rec' hk).1
  · by_cases hid : id ∈ recs.map OutboxRecord.id
    · obtain ⟨rec, hrec, rfl⟩ := List.mem_map.1 hid
      obtain ⟨k, hk⟩ := List.mem_iff_getElem?.1 hrec
      rw [(hfresh k rec hk).2.2 t, h.pending_eq_none (hfree rec hrec)]
      constructor
      · intro hsome
        split at hsome
        · next ht => exact ⟨_, _, (hfresh k rec hk).2.1, rfl, rfl, ht.symm⟩
        · cases hsome
      · rintro ⟨key, rec', hrow, hid', -, rfl⟩
        rcases hcases hrow with hrow | ⟨k', rec'', hk', rfl, rfl⟩
        · exact absurd (hid' ▸ hid) (hold hrow).2
        have hkk : k' = k := by
          have := (hfresh k' rec'' hk').1.symm.trans (hid' ▸ (hfresh k rec hk).1)
          simpa using this
        subst hkk
        cases hk.symm.trans hk'
        exact if_pos (show (rec.stored _).nextAttemptAtMs = rec.nextAttemptAtMs from rfl) ▸ rfl
    · rw [hst.pending t id hid, h.exact]
      constructor
      · rintro ⟨key, rec, hrow, hrest⟩
        exact ⟨key, rec, (hold hrow).1, hrest⟩
      · rintro ⟨key, rec, hrow, hid', hrest⟩
        rcases hcases hrow with hrow | ⟨k, rec', hk, rfl, rfl⟩
        · exact ⟨key, rec, hrow, hid', hrest⟩
        · have hmem : rec'.id ∈ recs.map OutboxRecord.id := List.mem_map_of_mem (List.mem_of_getElem? hk)
          exact absurd (hid' ▸ hmem) hid

/-- A rewrite meets the record: still there, pending only at the time that was read, and delivered only if the rewrite
says so too. -/
def Request.FreshOn (rows : Rows I) : Request I → Prop
  | rewrite rec oldPending _ => ∃ now ∈ rows.records (rec.aggregateId, rec.sequence),
    (now.status = .pending → now.nextAttemptAtMs = oldPending) ∧ (now.status = .delivered → rec.status = .delivered)
  | _ => True

instance (rows : Rows I) (r : Request I) : Decidable (r.FreshOn rows) := by
  cases r <;> (unfold Request.FreshOn; infer_instance)

lemma indexExact_rewrite (h : IndexExact rows) (hl : Ledger rows history) {oldPending : ℤ}
    {again : Bool} (hreq : rows.request (.rewrite rec oldPending again) = some rows')
    (hsound : (rec.id, rec.aggregateId, rec.sequence) ∈ assignments history)
    (hfresh : (Request.rewrite rec oldPending again : Request I).FreshOn rows)
    (hagain : again = true ↔ rec.status = .pending) : IndexExact rows' := by
  obtain ⟨now, hnow, htime, -⟩ := hfresh
  have hid : now.id = rec.id := hl.id_eq (hl.records _ now hnow).2 hsound
  obtain ⟨-, -, hcases⟩ := request_other hreq rfl
  rcases hcases with ⟨-, -, -, _, _, _, h⟩ | ⟨_, _, _, heq, hids, hrecords, hpending⟩ | ⟨_, _, h, -⟩
  · cases h
  · obtain ⟨rfl, rfl, rfl⟩ := Request.rewrite.inj heq
    have hlink : rows.ids rec.id = some (rec.aggregateId, rec.sequence) := hid ▸ h.linked _ now hnow
    refine ⟨fun key rec' hrow => ?_, fun t id => ?_⟩
    · rw [hrecords, update_apply] at hrow
      rw [hids]
      split at hrow
      · next hkey =>
        cases hrow
        rw [hlink, hkey]
      · exact h.linked key rec' hrow
    · by_cases hne : id = rec.id
      · subst hne
        -- after the rewrite the event has one row, the new one
        have hrow : (∃ key rec', rows'.records key = some rec' ∧ rec'.id = rec.id ∧ rec'.status = .pending ∧
            rec'.nextAttemptAtMs = t) ↔ rec.status = .pending ∧ rec.nextAttemptAtMs = t := by
          constructor
          · rintro ⟨key, rec', hrow, hid', hrest⟩
            rw [hrecords, update_apply] at hrow
            split at hrow
            · cases hrow
              exact hrest
            · next hkey =>
              exact absurd (Option.some.inj ((hid' ▸ h.linked key rec' hrow).symm.trans hlink)) hkey
          · intro hrest
            exact ⟨_, rec, by rw [hrecords, update_self], rfl, hrest⟩
        -- and its old entry, if there was one, is the one that is cleared
        have hcleared : Function.update rows.pending (oldPending, rec.id) none (t, rec.id) = none := by
          rw [update_apply]
          split
          · rfl
          · next ht =>
            by_contra hsome
            have := (h.isSome_iff hnow t).1 (hid ▸ Option.isSome_iff_ne_none.2 hsome)
            exact ht (by rw [this.2, htime this.1])
        rw [hrow, hpending, ← hagain]
        cases again with
        | false => simp [hcleared]
        | true =>
          simp only [if_true, update_apply (Function.update rows.pending (oldPending, rec.id) none), hcleared,
            Prod.mk.injEq, and_true, true_and]
          split
          · next ht => simp [ht]
          · next ht => simpa using Ne.symm ht
      · have hpend : rows'.pending (t, id) = rows.pending (t, id) := by
          have hkey : ∀ t', (t, id) ≠ (t', rec.id) := fun t' heq => hne (congrArg Prod.snd heq)
          rw [hpending]
          cases again <;> simp [update_of_ne (hkey _)]
        rw [hpend, h.exact]
        constructor
        · rintro ⟨key, rec', hrow, hid', hrest⟩
          refine ⟨key, rec', ?_, hid', hrest⟩
          rw [hrecords, update_of_ne]
          · exact hrow
          · rintro rfl
            cases hnow.symm.trans hrow
            exact hne (hid'.symm.trans hid)
        · rintro ⟨key, rec', hrow, hid', hrest⟩
          rw [hrecords, update_apply] at hrow
          split at hrow
          · cases hrow
            exact absurd hid'.symm hne
          · exact ⟨key, rec', hrow, hid', hrest⟩
  · cases h

lemma not_pending_of_canPrune {nowMs retentionMs : ℤ}
    (h : canPrune nowMs retentionMs rec = true) : rec.status ≠ .pending := by
  intro hp
  simp [canPrune, retentionBasisMs, hp] at h

lemma indexExact_prune (h : IndexExact rows)
    (hreq : rows.request (.prune key rec) = some rows') (hdone : rec.status ≠ .pending) : IndexExact rows' := by
  obtain ⟨-, -, hcases⟩ := request_other hreq rfl
  rcases hcases with ⟨-, -, -, _, _, _, h⟩ | ⟨_, _, _, h, -⟩ | ⟨_, _, heq, hrow, hids, hrecords, hpending⟩
  · cases h
  · cases h
  obtain ⟨rfl, rfl⟩ := Request.prune.inj heq
  -- the record was not pending, so it had no entry
  have hsame : rows'.pending = rows.pending := by
    rw [hpending, update_eq_self_iff]
    by_contra hne
    exact hdone ((h.isSome_iff hrow _).1 (Option.isSome_iff_ne_none.2 (Ne.symm hne))).1
  refine ⟨fun key' rec' hrow' => ?_, fun t id => ?_⟩
  · rw [hrecords, update_apply] at hrow'
    split at hrow'
    · cases hrow'
    next hkey =>
    rw [hids, update_of_ne]
    · exact h.linked key' rec' hrow'
    · intro hid
      exact hkey (Option.some.inj ((hid ▸ h.linked key' rec' hrow').symm.trans (h.linked key rec hrow)))
  · rw [hsame, h.exact]
    constructor
    · rintro ⟨key', rec', hrow', hid', hp, ht⟩
      refine ⟨key', rec', ?_, hid', hp, ht⟩
      rw [hrecords, update_of_ne]
      · exact hrow'
      · rintro rfl
        cases hrow.symm.trans hrow'
        exact hdone hp
    · rintro ⟨key', rec', hrow', hrest⟩
      rw [hrecords, update_apply] at hrow'
      split at hrow'
      · cases hrow'
      · exact ⟨key', rec', hrow', hrest⟩

end

/-! ### Runs -/

def World.delivers (w : World I) : Action I → Option (Request I)
  | .deliver k _ => w.sent[k]?.map Prod.snd
  | _ => none

def FreshRewrite (w : World I) (a : Action I) : Prop := ∀ r ∈ w.delivers a, r.FreshOn w.rows

instance (w : World I) (a : Action I) : Decidable (FreshRewrite w a) :=
  inferInstanceAs (Decidable (∀ r ∈ w.delivers a, r.FreshOn w.rows))

lemma delivers_of_out {a : Action I} {r : Request I} (h : (step w a).2 = some r) : w.delivers a = some r := by
  cases a with
  | start op =>
    simp only [step] at h
    split at h <;> cases h
  | read i =>
    simp only [step] at h
    split at h <;> cases h
  | deliver k heard =>
    simp only [step] at h
    split at h
    · cases h
    next i r' hk =>
    split at h
    · cases h
    · cases h
      rw [World.delivers, hk]
      rfl
  | giveUp i =>
    simp only [step] at h
    split at h
    · cases h
    · split at h <;> cases h
  | revoke lease => cases h

lemma Op.Sends.again_iff {op : Op I} {rec : OutboxRecord} {oldPending : ℤ} {again : Bool}
    (h : op.Sends (.rewrite rec oldPending again)) : again = true ↔ rec.status = .pending := by
  generalize hr : Request.rewrite rec oldPending again = r at h
  cases h with
  | @mark m id rec' =>
    obtain ⟨rfl, rfl, rfl⟩ := Request.rewrite.inj hr
    cases m <;> simp [Mark.again, Mark.rewrite]
  | acquire => cases hr
  | append cur => cases hr
  | commit cur => cases hr
  | fenced cur => cases hr
  | prune rec' hcan => cases hr

lemma indexExact_step (h : OutboxInv w) (hi : IndexExact w.rows) (a : Action I) (ha : FreshRewrite w a) :
    IndexExact (step w a).1.rows := by
  rcases step_rows w a with ⟨hrows, -, -⟩ | ⟨i, r, hsent, hreq, -, hout⟩ | ⟨lease, hrows, -, -⟩
  · rw [hrows]
    exact hi
  · have hfresh := ha r (delivers_of_out hout)
    obtain ⟨c, hc, hsends⟩ := h.byCalls _ hsent
    have hsound := h.sound _ hsent
    cases r with
    | acquire inst token lease =>
      rcases (request_other hreq rfl).2.2 with ⟨hids, hrecords, hpending, -⟩ | ⟨_, _, _, hr, -⟩ | ⟨_, _, hr, -⟩
      · exact hi.congr hids hrecords hpending
      · cases hr
      · cases hr
    | append rec cur => exact indexExact_stores hi h.ledger hreq rfl (hsound.1 _ _ _ rfl).1
    | commit inst value recs cur expected => exact indexExact_stores hi h.ledger hreq rfl (hsound.1 _ _ _ rfl).1
    | fenced g value recs cur expected => exact indexExact_stores hi h.ledger hreq rfl (hsound.1 _ _ _ rfl).1
    | rewrite rec oldPending again =>
      exact indexExact_rewrite hi h.ledger hreq (hsound.2 _ _ _ rfl) hfresh hsends.again_iff
    | prune key rec =>
      refine indexExact_prune hi hreq ?_
      cases hop : c.op <;> rw [hop] at hsends <;> cases hsends
      next hcan => exact not_pending_of_canPrune hcan
  · rw [hrows]
    exact hi.congr rfl rfl rfl

/-- The number was given, and the record under it is delivered if it is still there. -/
def DeliveredAt (key : Id × ℕ) (w : World I) : Prop :=
  (∃ id, (id, key) ∈ assignments w.history) ∧ ∀ rec, w.rows.records key = some rec → rec.status = .delivered

lemma deliveredAt_step (h : OutboxInv w) {key : Id × ℕ} (hd : DeliveredAt key w) (a : Action I)
    (ha : FreshRewrite w a) : DeliveredAt key (step w a).1 := by
  obtain ⟨⟨id, hmem⟩, hstatus⟩ := hd
  refine ⟨⟨id, assignments_mono (fun r hr => mem_history_step hr a) hmem⟩, ?_⟩
  rcases step_rows w a with ⟨hrows, -, -⟩ | ⟨i, r, hsent, hreq, -, hout⟩ | ⟨lease, hrows, -, -⟩
  · rw [hrows]
    exact hstatus
  · have hfresh := ha r (delivers_of_out hout)
    intro rec hrow
    cases hs : r.stores with
    | some batch =>
      obtain ⟨aggregate, cur, recs⟩ := batch
      obtain ⟨hseq, -, hst⟩ := request_stores hreq hs
      rw [hst.records key (h.ledger.ne_of_assigned hseq hmem)] at hrow
      exact hstatus rec hrow
    | none =>
      rcases (request_other hreq hs).2.2 with ⟨-, hrecords, -⟩ | ⟨rec', _, _, rfl, -, hrecords, -⟩ |
        ⟨_, _, -, -, -, hrecords, -⟩
      · exact hstatus rec (hrecords ▸ hrow)
      · rw [hrecords, update_apply] at hrow
        split at hrow
        · next hkey =>
          cases hrow
          obtain ⟨now, hnow, -, hdelivered⟩ := hfresh
          exact hdelivered (hstatus now (hkey ▸ hnow))
        · exact hstatus rec hrow
      · rw [hrecords, update_apply] at hrow
        split at hrow
        · cases hrow
        · exact hstatus rec hrow
  · rw [hrows]
    exact hstatus

/-- **With fresh rewrites the index is exact, and a delivered record never becomes pending again.** -/
theorem pending_index_exact (actions : List (Action I)) (hc : Along step Contract (World.start I) actions)
    (hf : Along step FreshRewrite (World.start I) actions) :
    (∀ key rec, (exec step (World.start I) actions).rows.records key = some rec → ∀ t,
      ((exec step (World.start I) actions).rows.pending (t, rec.id)).isSome ↔
        rec.status = .pending ∧ t = rec.nextAttemptAtMs) ∧
    ∀ earlier later, actions = earlier ++ later → ∀ key rec rec',
      (exec step (World.start I) earlier).rows.records key = some rec → rec.status = .delivered →
      (exec step (World.start I) actions).rows.records key = some rec' → rec'.status ≠ .pending := by
  have hboth := (along_and Contract FreshRewrite).2 ⟨hc, hf⟩
  refine ⟨fun key rec hrow => ?_, ?_⟩
  · have hinv := (along_inv (fun w => OutboxInv w ∧ IndexExact w.rows) (fun w a => Contract w a ∧ FreshRewrite w a)
      ⟨outboxInv_start, indexExact_empty⟩ hboth
      fun _ a ha h => ⟨outboxInv_step a ha.1 h.1, indexExact_step h.1 h.2 a ha.2⟩).1
    exact hinv.2.isSome_iff hrow
  · rintro earlier later rfl key rec rec' hrow hstatus hrow' hpending
    obtain ⟨hearlier, hlater⟩ := (along_append _).1 hboth
    have hmid := (along_inv OutboxInv (fun w a => Contract w a ∧ FreshRewrite w a) outboxInv_start hearlier
      fun _ a ha h => outboxInv_step a ha.1 h).1
    have hdelivered : DeliveredAt key (exec step (World.start I) earlier) := by
      refine ⟨⟨rec.id, (hmid.ledger.records key rec hrow).2⟩, fun rec'' hrow'' => ?_⟩
      cases hrow.symm.trans hrow''
      exact hstatus
    have hend := (along_inv (fun w => OutboxInv w ∧ DeliveredAt key w) (fun w a => Contract w a ∧ FreshRewrite w a)
      ⟨hmid, hdelivered⟩ hlater
      fun _ a ha h => ⟨outboxInv_step a ha.1 h.1, deliveredAt_step h.1 h.2 a ha.2⟩).1
    rw [exec_append] at hrow'
    cases (hend.2.2 rec' hrow').symm.trans hpending

/-! ### Two relays -/

/-- An event is appended, and two relays read its record. -/
def readByTwo (first second : Mark) : List (Action ℕ) :=
  [.start (.append (newRecord "e" "order" 10)), .read 0, .read 0, .deliver 0 true,
    .start (.mark first "e"), .start (.mark second "e"), .read 1, .read 1, .read 2, .read 2]

/-- One relay retries and later another one delivers, each after the other's rewrite. -/
theorem pending_index_exact_in_turn :
    let run : List (Action ℕ) := [.start (.append (newRecord "e" "order" 10)), .read 0, .read 0, .deliver 0 true,
      .start (.mark (.retry 1 30) "e"), .read 1, .read 1, .deliver 1 true,
      .start (.mark (.delivered 31) "e"), .read 2, .read 2, .deliver 2 true]
    Along step Contract (World.start ℕ) run ∧ Along step FreshRewrite (World.start ℕ) run ∧
    (exec step (World.start ℕ) run).rows.records ("order", 1) = some ⟨"e", "order", 1, 10, .delivered, 1, 30, some 31⟩ ∧
    ∀ t, ((exec step (World.start ℕ) run).rows.pending (t, "e")).isSome ↔
      OutboxStatus.delivered = .pending ∧ t = 30 := by
  intro run
  have hc : Along step Contract (World.start ℕ) run := by decide +kernel
  have hf : Along step FreshRewrite (World.start ℕ) run := by decide +kernel
  have hrow : (exec step (World.start ℕ) run).rows.records ("order", 1) =
      some ⟨"e", "order", 1, 10, .delivered, 1, 30, some 31⟩ := by decide +kernel
  exact ⟨hc, hf, hrow, (pending_index_exact run hc hf).1 _ _ hrow⟩

/-- Two relays that have read the record as it was appended: one delivers it and the other makes it pending again; or
both retry, and the record has two entries. -/
theorem stale_rewrites_break_index :
    let turned := readByTwo (.delivered 20) (.retry 1 30)
    let doubled := (exec step (World.start ℕ) (readByTwo (.retry 1 20) (.retry 1 30) ++
      [.deliver 1 true, .deliver 2 true])).rows
    ((exec step (World.start ℕ) (turned ++ [.deliver 1 true])).rows.records ("order", 1) =
        some ⟨"e", "order", 1, 10, .delivered, 0, 10, some 20⟩ ∧
      (exec step (World.start ℕ) (turned ++ [.deliver 1 true, .deliver 2 true])).rows.records ("order", 1) =
        some ⟨"e", "order", 1, 10, .pending, 1, 30, none⟩) ∧
    doubled.records ("order", 1) = some ⟨"e", "order", 1, 10, .pending, 1, 30, none⟩ ∧
      (doubled.pending (20, "e")).isSome ∧ (doubled.pending (30, "e")).isSome := by
  decide +kernel

end Coord.Workflow
