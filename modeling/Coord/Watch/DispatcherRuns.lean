import Coord.Watch.Dispatcher

/-!
# A watcher sees what the store holds

* `window`, `Watcher.evs` — the events of a stretch of revisions, and those a watcher gets of them;
* `valueUpTo` — the keys that the events up to a revision give;
* `LogInv` — the changelog and the earlier stores against all the events there were;
* `WatcherInv` — what was delivered to a watcher, and what its queue still holds;
* `Undisturbed` — when neither registration, replay nor conversion loses anything;
* `watcher_follows_store` — then a watcher that was not told otherwise follows the store;
* `watcher_misses_changes` — runs in which it does not.
-/

namespace Coord.Watch

open Coord.Lib Coord.Lib.History Coord.Storage Coord.Raft Coord.Auth Watcher List

/-! ### Stretches of revisions -/

/-- The events of the revisions in `(lo, hi]`. -/
def window (E : List ChangeEvent) (lo hi : ℕ) : List ChangeEvent :=
  E.filter fun e => decide (lo < e.revision ∧ e.revision ≤ hi)

def changesOf (E : List ChangeEvent) : List (Bytes × Option Bytes) := E.flatMap fun e => changePairs e.changes

/-- The keys that the events up to `T` give. -/
def valueUpTo (E : List ChangeEvent) (T : ℕ) : Bytes → Option Bytes :=
  overwrite (fun _ => none) (changesOf (E.filter fun e => decide (e.revision ≤ T)))

/-- What the watcher gets of the events in `(lo, hi]`. -/
def Watcher.evs (c : Watcher) (E : List ChangeEvent) (lo hi : ℕ) : List WatchEvent :=
  (window E lo hi).filterMap c.eventOf

abbrev InOrder (E : List ChangeEvent) : Prop := E.Pairwise fun a b => a.revision < b.revision

section

variable {E : List ChangeEvent} {e : ChangeEvent} {lo mid hi : ℕ}

lemma mem_window : e ∈ window E lo hi ↔ e ∈ E ∧ lo < e.revision ∧ e.revision ≤ hi := by
  simp [window]

lemma window_split (hs : InOrder E) (hlo : lo ≤ mid) (hhi : mid ≤ hi) :
    window E lo hi = window E lo mid ++ window E mid hi :=
  filter_split hs (fun e => by omega) fun a b ha hb => by omega

lemma upTo_split (hs : InOrder E) (hhi : mid ≤ hi) : (E.filter fun e => decide (e.revision ≤ hi)) =
      (E.filter fun e => decide (e.revision ≤ mid)) ++ window E mid hi :=
  filter_split hs (fun e => by omega) fun a b ha hb => by omega

lemma window_eq_of_le (hb : ∀ e ∈ E, e.revision ≤ mid) (hhi : mid ≤ hi) : window E lo hi = window E lo mid := by
  refine filter_congr fun e he => decide_eq_decide.2 ?_
  have := hb e he
  omega

lemma window_append (hhi : hi < e.revision) : window (E ++ [e]) lo hi = window E lo hi := by
  rw [window, filter_append, filter_cons_of_neg (by simp; omega), filter_nil, append_nil, window]

/-! ### The keys that the events give -/

@[simp] lemma changesOf_append (E E' : List ChangeEvent) : changesOf (E ++ E') = changesOf E ++ changesOf E' :=
  flatMap_append

lemma valueUpTo_split (hs : InOrder E) (hle : lo ≤ hi) (k : Bytes) :
    valueUpTo E hi k = overwrite (valueUpTo E lo) (changesOf (window E lo hi)) k := by
  rw [valueUpTo, upTo_split hs hle, changesOf_append, overwrite_append]
  rfl

/-- The events of a stretch, over the keys at its beginning or at any revision in it, give the keys at its end. -/
lemma overwrite_window (hs : InOrder E) (hlo : lo ≤ mid) (hhi : mid ≤ hi)
    (k : Bytes) : overwrite (valueUpTo E mid) (changesOf (window E lo hi)) k = valueUpTo E hi k := by
  rw [valueUpTo_split hs (hlo.trans hhi)]
  unfold overwrite
  cases hlast : lastChange k (changesOf (window E lo hi)) with
  | some v => rfl
  | none =>
    -- the key does not change in the stretch, so not before `mid` either
    rw [window_split hs hlo hhi, changesOf_append, lastChange_append, Option.or_eq_none_iff] at hlast
    simp only [Option.getD_none]
    rw [valueUpTo_split hs hlo, overwrite, hlast.2, Option.getD_none]

end

/-! ### What a watcher gets of them -/

section

variable {E : List ChangeEvent} {e : ChangeEvent} {x : WatchEvent} {c : Watcher} {lo mid hi : ℕ} {k : Bytes}

lemma eventOf_eq_some (h : c.eventOf e = some x) : x = ⟨watchEventType e.eventType,
    e.changes.filter fun ch => keyMatches ch.key c.key c.rangeEnd, e.revision⟩ := by
  unfold eventOf WatchEvent.ofChange at h
  dsimp only at h
  split at h
  · cases h
  · exact (Option.some.inj h).symm

lemma revision_of_eventOf (h : c.eventOf e = some x) : x.revision = e.revision := by
  rw [eventOf_eq_some h]

lemma eventOf_eq_none (h : ∀ ch ∈ e.changes, keyMatches ch.key c.key c.rangeEnd = false) : c.eventOf e = none := by
  have hnil : e.changes.filter (fun ch => keyMatches ch.key c.key c.rangeEnd) = [] :=
    filter_eq_nil_iff.2 fun ch hch => by simp [h ch hch]
  simp [eventOf, WatchEvent.ofChange, hnil]

lemma mem_evs (h : x ∈ c.evs E lo hi) : lo < x.revision ∧ x.revision ≤ hi := by
  obtain ⟨e, he, hx⟩ := mem_filterMap.1 h
  rw [revision_of_eventOf hx]
  exact (mem_window.1 he).2

lemma evs_split (hs : InOrder E) (hlo : lo ≤ mid) (hhi : mid ≤ hi) :
    c.evs E lo hi = c.evs E lo mid ++ c.evs E mid hi := by
  rw [Watcher.evs, window_split hs hlo hhi, filterMap_append]
  rfl

lemma events_sorted (hs : InOrder E) : (E.filterMap c.eventOf).Pairwise fun a b => a.revision < b.revision := by
  refine List.Pairwise.filterMap _ ?_ hs
  intro a b hab x hx y hy
  rw [revision_of_eventOf hx, revision_of_eventOf hy]
  exact hab

lemma evs_sorted (hs : InOrder E) : (c.evs E lo hi).Pairwise fun a b => a.revision < b.revision :=
  events_sorted (hs.filter _)

lemma evs_eq_nil (hle : hi ≤ lo) : c.evs E lo hi = [] :=
  eq_nil_iff_forall_not_mem.2 fun x hx => by
    have := mem_evs hx
    omega

lemma evs_cons (hs : InOrder E) {base : ℕ} (hbase : base ≤ lo)
    {rest : List WatchEvent} (h : c.evs E lo hi = x :: rest) :
    c.evs E base x.revision = c.evs E base lo ++ [x] ∧ c.evs E x.revision hi = rest := by
  have hx : lo < x.revision ∧ x.revision ≤ hi := mem_evs (h ▸ mem_cons_self)
  have hsplit := evs_split (c := c) hs hx.1.le hx.2
  rw [h] at hsplit
  have hone : c.evs E lo x.revision = [x] ∧ c.evs E x.revision hi = rest := by
    have hsorted : (c.evs E lo x.revision).Pairwise fun a b => a.revision < b.revision := evs_sorted hs
    cases hfirst : c.evs E lo x.revision with
    | nil =>
      rw [hfirst, nil_append] at hsplit
      have := (mem_evs (c := c) (E := E) (hsplit ▸ mem_cons_self : x ∈ c.evs E x.revision hi)).1
      omega
    | cons y ys =>
      rw [hfirst, cons_append] at hsplit
      obtain ⟨rfl, hrest⟩ := List.cons.inj hsplit
      rw [hfirst] at hsorted
      have hnil : ys = [] := eq_nil_iff_forall_not_mem.2 fun z hz => by
        have h1 := (pairwise_cons.1 hsorted).1 z hz
        have h2 := (mem_evs (c := c) (E := E) (hfirst ▸ mem_cons_of_mem _ hz : z ∈ c.evs E lo x.revision)).2
        omega
      rw [hnil] at hrest ⊢
      exact ⟨rfl, hrest.symm⟩
  refine ⟨?_, hone.2⟩
  rw [evs_split hs hbase hx.1.le, hone.1]

/-! ### The client's view -/

lemma lastChange_filter {l : List (Bytes × Option Bytes)} {p : Bytes × Option Bytes → Bool}
    (h : ∀ ch ∈ l, ch.1 = k → p ch = true) : lastChange k (l.filter p) = lastChange k l := by
  induction l with
  | nil => rfl
  | cons ch l ih =>
    have ih := ih fun ch hch => h ch (mem_cons_of_mem _ hch)
    by_cases hp : p ch = true
    · rw [filter_cons_of_pos hp, lastChange, lastChange, ih]
    · have hk : ch.1 ≠ k := fun hk => hp (h ch mem_cons_self hk)
      rw [filter_cons_of_neg hp, ih, lastChange, if_neg hk, Option.or_none]

/-- A typed event, converted, is the changes of the watched keys. -/
lemma fold_eventOf (htyped : Typed e) (h : c.eventOf e = some x) (view : Bytes → Option Bytes) :
    (convertWatchEventToResponse x).fold view =
      overwrite view (changePairs (e.changes.filter fun ch => keyMatches ch.key c.key c.rangeEnd)) := by
  rw [eventOf_eq_some h]
  set matching := e.changes.filter fun ch => keyMatches ch.key c.key c.rangeEnd
  have hsub : ∀ ch ∈ matching, ch ∈ e.changes := fun ch hch => (mem_filter.1 hch).1
  have hput : (∀ ch ∈ e.changes, ch.value.isSome = true) →
      ((matching.map fun ch => (ch.key, ch.value.getD [])).map fun kv => (kv.1, some kv.2)) = changePairs matching := by
    intro hall
    rw [map_map]
    refine map_congr_left fun ch hch => ?_
    obtain ⟨v, hv⟩ := Option.isSome_iff_exists.1 (hall ch (hsub ch hch))
    simp [hv]
  have hdelete : (∀ ch ∈ e.changes, ch.value = none) →
      ((matching.map fun ch => (ch.key, ch.value.getD [])).map fun kv => (kv.1, (none : Option Bytes))) =
        changePairs matching := by
    intro hall
    rw [map_map]
    refine map_congr_left fun ch hch => ?_
    simp [hall ch (hsub ch hch)]
  unfold Typed at htyped
  cases ht : e.eventType <;> rw [ht] at htyped <;>
    simp only [convertWatchEventToResponse, watchEventType, WatchResponse.fold]
  · rw [hput htyped]
  · rw [hdelete htyped]
  · rw [hput htyped]
  · rw [hdelete htyped]

lemma foldl_evs {L : List ChangeEvent} (htyped : ∀ e ∈ L, Typed e) (hk : keyMatches k c.key c.rangeEnd = true)
    {view view' : Bytes → Option Bytes} (hview : view k = view' k) :
    ((L.filterMap c.eventOf).map convertWatchEventToResponse).foldl (fun v r => r.fold v) view k =
      overwrite view' (changesOf L) k := by
  induction L generalizing view view' with
  | nil => exact hview
  | cons e L ih =>
    -- the changes of the event, at the key, with or without those of the other keys
    have hall : lastChange k (changePairs (e.changes.filter fun ch => keyMatches ch.key c.key c.rangeEnd)) =
        lastChange k (changePairs e.changes) := by
      have hmap : changePairs (e.changes.filter fun ch => keyMatches ch.key c.key c.rangeEnd) =
          (changePairs e.changes).filter fun ch => keyMatches ch.1 c.key c.rangeEnd := by
        rw [changePairs, changePairs, filter_map]
        rfl
      rw [hmap]
      exact lastChange_filter fun ch _ h => h ▸ hk
    have hstep : ∀ v : Bytes → Option Bytes, v k = view k →
        ((L.filterMap c.eventOf).map convertWatchEventToResponse).foldl (fun v r => r.fold v)
          (overwrite v (changePairs (e.changes.filter fun ch => keyMatches ch.key c.key c.rangeEnd))) k =
        overwrite view' (changesOf (e :: L)) k := by
      intro v hv
      have : changesOf (e :: L) = changePairs e.changes ++ changesOf L := rfl
      rw [this, overwrite_append]
      refine ih (fun e he => htyped e (mem_cons_of_mem _ he)) ?_
      simp only [overwrite, hall, hv, hview]
    cases hx : c.eventOf e with
    | some x =>
      rw [filterMap_cons_some hx, map_cons, foldl_cons,
        fold_eventOf (htyped e mem_cons_self) hx view]
      exact hstep view rfl
    | none =>
      rw [filterMap_cons_none hx]
      -- no change of the event is of a watched key
      have hnil : e.changes.filter (fun ch => keyMatches ch.key c.key c.rangeEnd) = [] := by
        unfold eventOf WatchEvent.ofChange at hx
        dsimp only at hx
        split at hx
        · assumption
        · cases hx
      have := hstep view rfl
      rw [hnil] at this
      exact this

end

/-! ### The log -/

/-- `E` is all the events there were: the changelog keeps those from the compacted revision on, and the earlier stores
are what they give. -/
structure LogInv (w : World) (E : List ChangeEvent) : Prop where
  rows : w.store.RowsHaveMeta
  sorted : E.Pairwise fun a b => a.revision < b.revision
  bound : ∀ e ∈ E, e.revision ≤ w.currentRevision
  typed : ∀ e ∈ E, Typed e
  changelog : w.store.changelog.rows =
    (E.filter fun e => decide (w.store.compactedRevision ≤ e.revision)).map fun e => (e.revision, e)
  cut : w.store.compactedRevision ≤ w.currentRevision
  index : w.currentRevision ≤ w.lastIndex
  states : ∀ T k, (w.stateAt T).get k = valueUpTo E T k
  pending : ∀ p ∈ w.pending, p ∈ E ∧ p.revision = w.currentRevision ∧ 0 < p.revision

lemma logInv_start : LogInv World.start [] where
  rows := fun _ _ => rfl
  sorted := .nil
  bound := fun _ h => by cases h
  typed := fun _ h => by cases h
  changelog := rfl
  cut := le_rfl
  index := le_rfl
  states := fun _ _ => rfl
  pending := fun _ h => by cases h

variable {entry : ChangeEvent}

section

variable {w : World} {E : List ChangeEvent} {s' : Store} {event : Option ChangeEvent} {r : ℕ}

/-- The node after an entry at `r`. -/
def World.applied (w : World) (s' : Store) (event : Option ChangeEvent) (r : ℕ) : World :=
  { w with store := s', past := w.store :: w.past, lastIndex := r, pending := event }

lemma stateAt_applied (w : World) (s' : Store) (event : Option ChangeEvent) (r T : ℕ) :
    (w.applied s' event r).stateAt T = if s'.currentRevision .logIndex ≤ T then s' else w.stateAt T := by
  unfold World.stateAt World.applied
  rw [find?_cons]
  split <;> simp_all

lemma stateAt_current (w : World) {T : ℕ} (h : w.currentRevision ≤ T) : w.stateAt T = w.store := by
  have hle : w.store.currentRevision .logIndex ≤ T := h
  simp [World.stateAt, hle]

lemma LogInv.fresh (h : LogInv w E) (hr : w.lastIndex < r) : w.store.changelog.has r = false := by
  rw [Bool.eq_false_iff]
  intro hhas
  obtain ⟨e, he⟩ := Table.has_iff.1 hhas
  have hmem := Table.mem_rows.2 he
  rw [h.changelog] at hmem
  obtain ⟨e', he', heq⟩ := mem_map.1 hmem
  have hrev : e'.revision = r := congrArg Prod.fst heq
  have hb := h.bound e' (mem_filter.1 he').1
  have := h.index
  omega

lemma LogInv.tick (h : LogInv w E) (hget : s'.get = w.store.get) (hrows : s'.RowsHaveMeta)
    (hlog : s'.changelog.rows = (E.filter fun e => decide (s'.compactedRevision ≤ e.revision)).map fun e =>
      (e.revision, e))
    (hcut : s'.compactedRevision ≤ w.currentRevision) (hr : w.lastIndex < r)
    (hcur : s'.currentRevision .logIndex = w.currentRevision ∨ s'.currentRevision .logIndex = r) :
    LogInv (w.applied s' none r) E := by
  have hindex := h.index
  have hle : w.currentRevision ≤ s'.currentRevision .logIndex := by omega
  have hle' : s'.currentRevision .logIndex ≤ r := by omega
  refine ⟨hrows, h.sorted, fun e he => (h.bound e he).trans hle, h.typed, hlog, hcut.trans hle, hle', ?_,
    fun p hp => by cases hp⟩
  intro T k
  rw [stateAt_applied]
  split
  · next hT => rw [hget, ← stateAt_current w (hle.trans hT), h.states]
  · exact h.states T k

lemma LogInv.write (h : LogInv w E) (hrev : entry.revision = r) (htyped : Typed entry)
    (hget : ∀ k, s'.get k = overwrite w.store.get (changePairs entry.changes) k) (hrows : s'.RowsHaveMeta)
    (hlog : s'.changelog = w.store.changelog.insert r entry) (hcut : s'.compactedRevision = w.store.compactedRevision)
    (hcur : s'.currentRevision .logIndex = r) (hr : w.lastIndex < r) (hevent : ∀ p ∈ event, p = entry) :
    LogInv (w.applied s' event r) (E ++ [entry]) := by
  have hindex := h.index
  have hlt : ∀ e ∈ E, e.revision < r := fun e he => by
    have := h.bound e he
    omega
  refine ⟨hrows, ?_, ?_, ?_, ?_, ?_, hcur.le, ?_, ?_⟩
  · exact pairwise_append_one h.sorted fun a ha => hrev ▸ hlt a ha
  · exact forall_mem_append_one (fun e he => (hlt e he).le.trans hcur.ge) (hrev.trans hcur.symm).le
  · exact forall_mem_append_one h.typed htyped
  · change s'.changelog.rows =
      ((E ++ [entry]).filter fun e => decide (s'.compactedRevision ≤ e.revision)).map fun e => (e.revision, e)
    have hcutr : w.store.compactedRevision ≤ entry.revision := by
      have := h.cut
      omega
    have habove : ∀ row ∈ w.store.changelog.rows, row.1 < r := by
      intro row hrow
      rw [h.changelog] at hrow
      obtain ⟨e, he, rfl⟩ := mem_map.1 hrow
      exact hlt e (mem_filter.1 he).1
    rw [hlog, hcut, Table.rows_insert_last entry habove, h.changelog, filter_append,
      filter_cons_of_pos (by simpa using hcutr), map_append]
    simp [hrev]
  · change s'.compactedRevision ≤ s'.currentRevision .logIndex
    have := h.cut
    omega
  · intro T k
    rw [stateAt_applied, hcur]
    have hfilter : (E ++ [entry]).filter (fun e => decide (e.revision ≤ T)) =
        E.filter (fun e => decide (e.revision ≤ T)) ++ if r ≤ T then [entry] else [] := by
      rw [filter_append]
      congr 1
      rw [filter_singleton, hrev]
      simp
    split
    · next hT =>
      have hnow : w.store.get = valueUpTo E T := funext fun k => by
        rw [← stateAt_current w (by omega : w.currentRevision ≤ T), h.states]
      rw [hget, hnow, valueUpTo, valueUpTo, hfilter, if_pos hT, changesOf_append, overwrite_append]
      simp [changesOf]
    · next hT => rw [h.states, valueUpTo, valueUpTo, hfilter, if_neg hT, append_nil]
  · intro p hp
    obtain rfl := hevent p hp
    exact ⟨mem_append_right _ (mem_singleton.2 rfl), hrev.trans hcur.symm, by omega⟩

lemma LogInv.effect (h : LogInv w E) {cmd : Command} (hr : w.lastIndex < r) (heff : KvEffect cmd r w.store s' event) :
    (event = none ∧ w.currentRevision ≤ s'.currentRevision .logIndex ∧ LogInv (w.applied s' event r) E) ∨
      ∃ entry, entry.revision = r ∧ Announced cmd entry event ∧ LogInv (w.applied s' event r) (E ++ [entry]) := by
  have hindex := h.index
  have hmono : s'.currentRevision .logIndex = w.currentRevision ∨ s'.currentRevision .logIndex = r →
      w.currentRevision ≤ s'.currentRevision .logIndex := by omega
  cases heff with
  | quiet hkv hmeta hlog hcut hcur =>
    refine .inl ⟨rfl, hmono hcur, h.tick ?_ ?_ ?_ (hcut ▸ h.cut) hr hcur⟩
    · exact funext fun k => Store.get_congr (by rw [hkv]) (by rw [hmeta])
    · intro k hk
      rw [hkv]
      exact h.rows k (by rwa [hmeta] at hk)
    · rw [hlog, hcut, h.changelog]
  | wrote entry hrev htyped hget hrows hlog hcut hcur hevent =>
    refine .inr ⟨entry, hrev, hevent, h.write hrev htyped hget hrows hlog hcut hcur hr ?_⟩
    intro p hp
    cases hevent with
    | event => exact (Option.some.inj hp).symm
    | silent _ => cases hp
  | compacted effective hlt hle hget hrows hlog hcut hcur =>
    refine .inl ⟨rfl, hmono hcur, h.tick hget hrows ?_ (hcut ▸ hle) hr hcur⟩
    have hrowsEq : s'.changelog.rows = w.store.changelog.rows.filter fun row => !decide (row.1 < effective) := by
      rw [hlog]
      rfl
    rw [hrowsEq, h.changelog, filter_map, filter_filter, hcut]
    congr 1
    refine filter_congr fun e _ => ?_
    simp only [Function.comp_apply]
    rw [← decide_not, ← Bool.decide_and]
    exact decide_eq_decide.2 (by omega)

lemma LogInv.apply (h : LogInv w E) {cfg : Raft.Config} {nowMs : ℤ} {e : Entry} (hmode : cfg.mode = .logIndex)
    (hr : w.lastIndex < e.logId.index) (hv1 : onV1 e = true)
    (hplain : ∀ cmd, e.payload = .normal cmd → PlainTxn w.store cmd)
    (hok : applyEvent cfg nowMs w.store e = .ok (s', event)) :
    (event = none ∧ w.currentRevision ≤ s'.currentRevision .logIndex ∧ LogInv (w.applied s' event e.logId.index) E) ∨
      ∃ cmd entry, e.payload = .normal cmd ∧ entry.revision = e.logId.index ∧ Announced cmd entry event ∧
        LogInv (w.applied s' event e.logId.index) (E ++ [entry]) := by
  have hlt : w.store.currentRevision .logIndex < e.logId.index := h.index.trans_lt hr
  unfold applyEvent at hok
  cases hp : e.payload with
  | normal cmd =>
    rw [hp] at hok
    obtain ⟨⟨t, answer, ev⟩, ht, he⟩ := map_eq_ok hok
    cases he
    have hcmd : cmd.onV1 = true := by
      unfold onV1 at hv1
      rwa [hp] at hv1
    rcases h.effect hr (kvEffect_executeCommand hmode hcmd (hplain cmd hp) h.rows (h.fresh hr) hlt ht) with
      h | ⟨entry, hrev, hann, h⟩
    · exact .inl h
    · exact .inr ⟨cmd, entry, rfl, hrev, hann, h⟩
  | membership config =>
    rw [hp] at hok
    cases hok
    have hcur := @currentRevision_setLastApplied _ w.store e.logId rfl
    obtain ⟨row, hrow⟩ := setLastApplied_eq w.store e.logId
    rw [hrow] at hcur
    rw [hmode, hrow]
    have hle : w.currentRevision ≤ e.logId.index := hlt.le
    exact .inl ⟨rfl, hcur.elim (fun h => h.ge) (fun h => hle.trans h.ge), h.tick rfl h.rows h.changelog h.cut hr hcur⟩
  | blank =>
    rw [hp] at hok
    cases hok
    exact .inl ⟨rfl, le_rfl, h.tick rfl h.rows h.changelog h.cut hr (.inl rfl)⟩

end

/-! ### Watchers -/

/-- Up to which revision the events have been dispatched. -/
def World.dispatchedRev (w : World) : ℕ :=
  match w.pending with
  | some p => p.revision - 1
  | none => w.currentRevision

/-- The watcher gets the events above this revision. -/
def Watcher.after (c : Watcher) : ℕ :=
  if c.startRevision = 0 then c.watermarkRev else min (c.startRevision - 1) c.watermarkRev

def Watcher.fresh (c : Watcher) (queue : List WatchEvent) : List WatchEvent :=
  queue.filter fun e => decide (c.watermarkRev < e.revision)

/-- What was delivered, with what the task still has in its hands, is what the watcher gets of the events up to `X`. -/
def Served (E : List ChangeEvent) (c : Watcher) (X : ℕ) : Prop :=
  match c.phase with
  | .captured => c.delivered = [] ∧ X = c.watermarkRev
  | .subscribed => c.delivered = [] ∧ X = c.watermarkRev
  | .checked => c.delivered = [] ∧ X = c.watermarkRev ∧ c.startRevision ≠ 0
  | .replaying todo sent => c.delivered = [] ∧ X = c.watermarkRev ∧
      (todo.Pairwise fun a b => a.revision < b.revision) ∧
      sent ++ (todo.filter fun e => decide (e.revision ≤ c.watermarkRev)).filterMap c.eventOf =
        c.evs E c.after c.watermarkRev
  | .draining sent => X = c.watermarkRev ∧ c.delivered ++ sent.map convertWatchEventToResponse =
      (c.evs E c.after c.watermarkRev).map convertWatchEventToResponse
  | .live _ => c.delivered = (c.evs E c.after X).map convertWatchEventToResponse
  | .closed => ∃ rest, c.delivered ++ rest = (c.evs E c.after X).map convertWatchEventToResponse

/-- The queue has the events between `X` and the dispatch. Once one was dropped, what it has at its head still comes
right after `X`, until the flag is looked at. -/
structure Queued (w : World) (E : List ChangeEvent) (c : Watcher) (X : ℕ) : Prop where
  captured : c.phase = .captured → c.queue = [] ∧ c.overflow = false ∧ c.evs E c.watermarkRev w.dispatchedRev = []
  whole : c.registered = true → c.overflow = false → c.fresh c.queue = c.evs E X w.dispatchedRev
  head : c.phase = .live true → c.overflow = true → ∃ pre post Z, c.queue = pre ++ post ∧ pre ≠ [] ∧
    Z ≤ max c.watermarkRev w.dispatchedRev ∧ c.fresh pre = c.evs E X Z

structure WatcherInv (w : World) (E : List ChangeEvent) (c : Watcher) : Prop where
  watermark : c.watermarkRev ≤ w.currentRevision
  served : ∃ X, c.watermarkRev ≤ X ∧ X ≤ max c.watermarkRev w.dispatchedRev ∧ Served E c X ∧ Queued w E c X

/-- The events up to the watermark that change a watched key. -/
def Watcher.due (c : Watcher) (todo : List ChangeEvent) : List WatchEvent :=
  (todo.filter fun e => decide (e.revision ≤ c.watermarkRev)).filterMap c.eventOf

/-- **A step of the replay**: nothing is left to send, or the next event goes into the channel, or there is no room. -/
lemma advance_replaying {c : Watcher} (cfg : WatchConfig) (s : Store) (n : ℕ) {todo : List ChangeEvent}
    {sent : List WatchEvent} (hphase : c.phase = .replaying todo sent) (ho : InOrder todo) :
    (c.due todo = [] ∧ c.advance cfg s n = { c with phase := .draining sent }) ∨
    (∃ e rest, todo = e :: rest ∧ c.due todo = (c.eventOf e).toList ++ c.due rest ∧
      (sent.length ≤ historyCapacity → (sent ++ (c.eventOf e).toList).length ≤ historyCapacity) ∧
      c.advance cfg s n = { c with phase := .replaying rest (sent ++ (c.eventOf e).toList) }) ∨
    historyCapacity < (sent ++ c.due todo).length ∧ c.advance cfg s n = c := by
  unfold Watcher.advance
  rw [hphase]
  cases todo with
  | nil => exact .inl ⟨rfl, rfl⟩
  | cons e rest =>
    dsimp only
    split
    · next hlt =>
      -- what is left is above the watermark
      have hnone : ∀ x ∈ e :: rest, ¬ x.revision ≤ c.watermarkRev := by
        rw [forall_mem_cons]
        refine ⟨by omega, fun x hx => ?_⟩
        have := (pairwise_cons.1 ho).1 x hx
        omega
      exact .inl ⟨by rw [Watcher.due, filter_eq_nil_iff.2 (by simpa using hnone), filterMap_nil], rfl⟩
    next hle =>
    have hdue : c.due (e :: rest) = (c.eventOf e).toList ++ c.due rest := by
      rw [Watcher.due, filter_cons_of_pos (by simpa using hle), filterMap_cons]
      cases c.eventOf e <;> rfl
    refine .inr ?_
    split
    · next he => exact .inl ⟨e, rest, rfl, hdue, by simp [he], by simp [he]⟩
    · next x he =>
      split
      · next hroom => exact .inl ⟨e, rest, rfl, hdue,
          fun _ => by simpa [he] using Nat.succ_le_of_lt hroom, by simp [he]⟩
      · exact .inr ⟨by simp [hdue, he]; omega, rfl⟩

section

variable {w : World} {E : List ChangeEvent} {c : Watcher} {X : ℕ}

lemma after_le (c : Watcher) : c.after ≤ c.watermarkRev := by
  unfold Watcher.after
  split
  · exact le_rfl
  · exact min_le_right _ _

variable {e : WatchEvent} {p : ChangeEvent} {queue : List WatchEvent}

lemma next_of_fresh (hs : InOrder E) (hX : c.watermarkRev ≤ X) {Z : ℕ} (hlt : c.watermarkRev < e.revision)
    (h : c.fresh (e :: queue) = c.evs E X Z) :
    X < e.revision ∧ e.revision ≤ Z ∧ c.evs E c.after e.revision = c.evs E c.after X ++ [e] ∧
      c.fresh queue = c.evs E e.revision Z := by
  have hcons : c.evs E X Z = e :: c.fresh queue := by
    rw [← h]
    exact filter_cons_of_pos (by simpa using hlt)
  have hmem := mem_evs (c := c) (E := E) (hcons ▸ mem_cons_self : e ∈ c.evs E X Z)
  obtain ⟨h1, h2⟩ := evs_cons hs ((after_le c).trans hX) hcons
  exact ⟨hmem.1, hmem.2, h1, h2.symm⟩

lemma fresh_cons_of_le (hle : e.revision ≤ c.watermarkRev) (queue : List WatchEvent) :
    c.fresh (e :: queue) = c.fresh queue :=
  filter_cons_of_neg (by simpa using hle)

/-- The changelog from the start on, up to the watermark, is what the watcher gets first. -/
lemma replay_eq (hlog : LogInv w E) (hstart : c.startRevision ≠ 0)
    (hcut : w.store.compactedRevision ≤ c.startRevision) :
    let events := (w.store.changelog.rows.filter fun row => decide (c.startRevision ≤ row.1)).map Prod.snd
    (events.Pairwise fun a b => a.revision < b.revision) ∧
      (events.filter fun e => decide (e.revision ≤ c.watermarkRev)).filterMap c.eventOf =
        c.evs E c.after c.watermarkRev := by
  have hevents : (w.store.changelog.rows.filter fun row => decide (c.startRevision ≤ row.1)).map Prod.snd =
      E.filter fun e => decide (c.startRevision ≤ e.revision) := by
    rw [hlog.changelog, filter_map, map_map, filter_filter]
    refine (map_id' _).trans (filter_congr fun e _ => ?_)
    simp only [Function.comp_apply]
    rw [← Bool.decide_and]
    exact decide_eq_decide.2 (by omega)
  dsimp only
  rw [hevents]
  refine ⟨hlog.sorted.filter _, ?_⟩
  rw [Watcher.evs, Watcher.after, if_neg hstart, filter_filter]
  refine congrArg _ (filter_congr fun e _ => ?_)
  rw [← Bool.decide_and]
  exact decide_eq_decide.2 (by omega)

lemma told_deliver {r : WatchResponse} (phase : Phase) (h : r.eventType = .bufferOverflow ∨
    r.eventType = .historyUnavailable) :
    (c.deliver r phase).told = true := by
  unfold Watcher.told deliver
  rw [any_append, Bool.or_eq_true]
  exact .inr (by simpa using h)

lemma WatcherInv.close (h : WatcherInv w E c) : WatcherInv w E { c with phase := .closed } := by
  obtain ⟨X, hWX, hXD, hserved, -⟩ := h.served
  refine ⟨h.watermark, X, hWX, hXD, ?_, nofun, nofun, nofun⟩
  change ∃ rest, c.delivered ++ rest = (c.evs E c.after X).map convertWatchEventToResponse
  unfold Served at hserved
  split at hserved
  · exact ⟨_, by rw [hserved.1]; rfl⟩
  · exact ⟨_, by rw [hserved.1]; rfl⟩
  · exact ⟨_, by rw [hserved.1]; rfl⟩
  · exact ⟨_, by rw [hserved.1]; rfl⟩
  · obtain ⟨rfl, hserved⟩ := hserved
    exact ⟨_, hserved⟩
  · exact ⟨[], by rw [append_nil, hserved]⟩
  · exact hserved

lemma Queued.to_phase (h : Queued w E c X) (hreg : c.registered = true) {delivered : List WatchResponse} {phase : Phase}
    (hcap : phase ≠ .captured := by nofun) (hlive : phase ≠ .live true := by nofun) :
    Queued w E { c with phase, delivered } X :=
  ⟨fun hp => absurd hp hcap, fun _ ho => h.whole hreg ho, fun hp => absurd hp hlive⟩

lemma WatcherInv.forward (hlog : LogInv w E) (h : WatcherInv w E c)
    (hphase : c.phase = .live true) (hqueue : c.queue = e :: queue) :
    WatcherInv w E (if e.revision ≤ c.watermarkRev then { c with queue, phase := .live false }
      else { c.deliver (convertWatchEventToResponse e) (.live false) with queue }) := by
  obtain ⟨X, hWX, hXD, hserved, hq⟩ := h.served
  have hreg : c.registered = true := by simp [registered, hphase]
  have hdel : c.delivered = (c.evs E c.after X).map convertWatchEventToResponse := by
    rw [Served, hphase] at hserved
    exact hserved
  -- up to `Z` the queue is what comes after `X`; `Z` is the dispatch if nothing was dropped
  obtain ⟨Z, rest, hZ, hfresh, hwhole⟩ : ∃ Z rest, Z ≤ max c.watermarkRev w.dispatchedRev ∧
      c.fresh (e :: rest) = c.evs E X Z ∧ (c.overflow = false → rest = queue ∧ Z = w.dispatchedRev) := by
    cases ho : c.overflow with
    | false => exact ⟨_, queue, le_max_right _ _, hqueue ▸ hq.whole hreg ho, fun _ => ⟨rfl, rfl⟩⟩
    | true =>
      obtain ⟨pre, post, Z, hpre, hne, hZ, hfresh⟩ := hq.head hphase ho
      cases pre with
      | nil => exact absurd rfl hne
      | cons e' pre =>
        obtain ⟨rfl, -⟩ := List.cons.inj (hqueue.symm.trans hpre)
        exact ⟨Z, pre, hZ, hfresh, nofun⟩
  split
  · next hle =>
    refine ⟨h.watermark, X, hWX, hXD, hdel, nofun, fun _ ho => ?_, nofun⟩
    obtain ⟨rfl, rfl⟩ := hwhole ho
    exact (fresh_cons_of_le hle _).symm.trans hfresh
  · next hlt =>
    obtain ⟨hX, heZ, hdel', hrest⟩ := next_of_fresh hlog.sorted hWX (not_le.1 hlt) hfresh
    refine ⟨h.watermark, e.revision, hWX.trans hX.le, heZ.trans hZ, ?_, nofun, fun _ ho => ?_, nofun⟩
    · change c.delivered ++ [convertWatchEventToResponse e] =
        (c.evs E c.after e.revision).map convertWatchEventToResponse
      rw [hdel', hdel, map_append]
      rfl
    · obtain ⟨rfl, rfl⟩ := hwhole ho
      exact hrest

lemma WatcherInv.replay (h : WatcherInv w E c) {todo : List ChangeEvent} {sent : List WatchEvent}
    (hphase : c.phase = .replaying todo sent) (cfg : WatchConfig) (s : Store) (n : ℕ) :
    WatcherInv w E (c.advance cfg s n) := by
  obtain ⟨X, hWX, hXD, hserved, hq⟩ := h.served
  have hreg : c.registered = true := by simp [registered, hphase]
  rw [Served, hphase] at hserved
  obtain ⟨hdel, rfl, hsorted, hsent⟩ := hserved
  rcases advance_replaying cfg s n hphase hsorted with ⟨hdone, heq⟩ | ⟨e, rest, rfl, hdue, -, heq⟩ | ⟨-, heq⟩
  · rw [heq]
    change sent ++ c.due todo = _ at hsent
    rw [hdone, append_nil] at hsent
    refine ⟨h.watermark, _, hWX, hXD, ⟨rfl, ?_⟩, hq.to_phase hreg⟩
    change c.delivered ++ sent.map convertWatchEventToResponse = _
    rw [hdel, hsent]
    rfl
  · rw [heq]
    refine ⟨h.watermark, _, hWX, hXD, ⟨hdel, rfl, (pairwise_cons.1 hsorted).2, ?_⟩, hq.to_phase hreg⟩
    rw [append_assoc]
    exact (congrArg _ hdue.symm).trans hsent
  · rwa [heq]

lemma WatcherInv.advance (hlog : LogInv w E) (h : WatcherInv w E c) (cfg : WatchConfig) (n : ℕ)
    (hcheck : c.phase = .checked → w.store.compactedRevision ≤ c.startRevision)
    (hnt : (c.advance cfg w.store n).told = false) : WatcherInv w E (c.advance cfg w.store n) := by
  obtain ⟨X, hWX, hXD, hserved, hq⟩ := h.served
  unfold Watcher.advance at hnt ⊢
  unfold Served at hserved
  cases hphase : c.phase with
  | captured =>
    simp only [hphase] at hserved hnt ⊢
    obtain ⟨hdel, rfl⟩ := hserved
    obtain ⟨hqueue, ho, hevs⟩ := hq.captured hphase
    split
    · refine ⟨h.watermark, _, hWX, hXD, ⟨hdel, rfl⟩, nofun, fun _ _ => ?_, nofun⟩
      change c.fresh c.queue = _
      rw [hqueue]
      exact hevs.symm
    · exact h.close
  | subscribed =>
    have hreg : c.registered = true := by simp [registered, hphase]
    simp only [hphase] at hserved hnt ⊢
    obtain ⟨hdel, rfl⟩ := hserved
    split
    · next hstart =>
      refine ⟨h.watermark, _, hWX, hXD, ?_, hq.to_phase hreg⟩
      change c.delivered = (c.evs E c.after c.watermarkRev).map _
      rw [evs_eq_nil (by rw [Watcher.after, if_pos hstart]), hdel]
      rfl
    · next hstart =>
      rw [if_neg hstart] at hnt
      split
      · next hcut =>
        rw [if_pos hcut, told_deliver _ (.inr rfl)] at hnt
        cases hnt
      · exact ⟨h.watermark, _, hWX, hXD, ⟨hdel, rfl, hstart⟩, hq.to_phase hreg⟩
  | checked =>
    have hreg : c.registered = true := by simp [registered, hphase]
    simp only [hphase] at hserved hnt ⊢
    obtain ⟨hdel, rfl, hstart⟩ := hserved
    obtain ⟨hsorted, hevs⟩ := replay_eq hlog hstart (hcheck hphase)
    exact ⟨h.watermark, _, hWX, hXD, ⟨hdel, rfl, hsorted, hevs⟩, hq.to_phase hreg⟩
  | replaying todo sent => simpa only [Watcher.advance, hphase] using h.replay hphase cfg w.store n
  | draining sent =>
    have hreg : c.registered = true := by simp [registered, hphase]
    simp only [hphase] at hserved
    obtain ⟨rfl, hdel⟩ := hserved
    cases sent with
    | nil =>
      simp only
      refine ⟨h.watermark, _, hWX, hXD, ?_, hq.to_phase hreg⟩
      rw [map_nil, append_nil] at hdel
      exact hdel
    | cons e sent =>
      simp only
      refine ⟨h.watermark, _, hWX, hXD, ⟨rfl, ?_⟩, hq.to_phase hreg⟩
      change (c.delivered ++ [convertWatchEventToResponse e]) ++ sent.map convertWatchEventToResponse = _
      rw [append_assoc]
      exact hdel
  | live looked =>
    cases looked with
    | false =>
      simp only [hphase] at hserved hnt ⊢
      cases ho : c.overflow with
      | true =>
        rw [ho, if_pos rfl] at hnt
        have htold : (c.deliver bufferOverflow (.live true)).told = true := told_deliver _ (.inl rfl)
        exact absurd (htold.symm.trans hnt) nofun
      | false =>
        rw [if_neg nofun]
        have hreg : c.registered = true := by simp [registered, hphase]
        exact ⟨h.watermark, X, hWX, hXD, hserved, nofun, fun _ _ => hq.whole hreg ho, nofun⟩
    | true =>
      simp only
      split
      · exact h
      · next e queue hqueue => exact h.forward hlog hphase hqueue
  | closed => exact h

lemma WatcherInv.carry {w' : World} {E' : List ChangeEvent} (h : WatcherInv w E c)
    (hD : w.dispatchedRev ≤ w.currentRevision)
    (hcur : w.currentRevision ≤ w'.currentRevision) (hdisp : w.dispatchedRev ≤ w'.dispatchedRev)
    (hpast : ∀ lo hi, hi ≤ w.currentRevision → c.evs E' lo hi = c.evs E lo hi)
    (hnew : c.phase ≠ .closed → ∀ lo, c.evs E' lo w'.dispatchedRev = c.evs E lo w.dispatchedRev) :
      WatcherInv w' E' c := by
  obtain ⟨X, hWX, hXD, hserved, hq⟩ := h.served
  have hW := h.watermark
  have hmax : max c.watermarkRev w.dispatchedRev ≤ w.currentRevision := max_le hW hD
  have hmax' : max c.watermarkRev w.dispatchedRev ≤ max c.watermarkRev w'.dispatchedRev := max_le_max le_rfl hdisp
  refine ⟨hW.trans hcur, X, hWX, hXD.trans hmax', ?_, ?_, ?_, ?_⟩
  · unfold Served at hserved ⊢
    rwa [hpast _ _ hW, hpast _ _ (hXD.trans hmax)]
  · intro hp
    rw [hnew (by rw [hp]; nofun)]
    exact hq.captured hp
  · intro hreg ho
    rw [hnew (fun hp => by simp [registered, hp] at hreg)]
    exact hq.whole hreg ho
  · intro hp ho
    obtain ⟨pre, post, Z, hpre, hne, hZ, hfresh⟩ := hq.head hp ho
    exact ⟨pre, post, Z, hpre, hne, hZ.trans hmax', hfresh.trans (hpast _ _ (hZ.trans hmax)).symm⟩

lemma LogInv.dispatchedRev_le (h : LogInv w E) : w.dispatchedRev ≤ w.currentRevision := by
  unfold World.dispatchedRev
  split
  · next p hp =>
    have := (h.pending p hp).2.1
    omega
  · exact le_rfl

lemma evs_append {lo hi : ℕ} (hhi : hi < entry.revision) : c.evs (E ++ [entry]) lo hi = c.evs E lo hi := by
  rw [Watcher.evs, window_append hhi]
  rfl

lemma evs_last (hs : InOrder E) (hp : p ∈ E) {lo : ℕ} (hlo : lo < p.revision) :
    c.evs E lo p.revision = c.evs E lo (p.revision - 1) ++ (c.eventOf p).toList := by
  rw [evs_split hs (Nat.le_sub_one_of_lt hlo) (Nat.sub_le _ _)]
  congr 1
  have hone : window E (p.revision - 1) p.revision = [p] := by
    obtain ⟨l₁, l₂, rfl⟩ := append_of_mem hp
    obtain ⟨-, h2, h12⟩ := pairwise_append.1 hs
    have hbefore := fun e he => h12 e he p mem_cons_self
    have hbehind := (pairwise_cons.1 h2).1
    rw [window, filter_append, filter_cons_of_pos (by simp; omega),
      filter_eq_nil_iff.2 fun e he => ?_, filter_eq_nil_iff.2 fun e he => ?_]
    · rfl
    · have := hbehind e he
      simp only [decide_eq_true_eq]
      omega
    · have := hbefore e he
      simp only [decide_eq_true_eq]
      omega
  rw [Watcher.evs, hone]
  cases hev : c.eventOf p with
  | none => rw [filterMap_cons_none hev]; rfl
  | some e => rw [filterMap_cons_some hev]; rfl

lemma evs_dispatched (hs : InOrder E) (hp : p ∈ E)
    (hWX : c.watermarkRev ≤ X) (hX : X ≤ max c.watermarkRev (p.revision - 1)) (hW : c.watermarkRev ≤ p.revision)
    (hpos : 0 < p.revision) :
    c.evs E X p.revision = c.evs E X (p.revision - 1) ++ c.fresh (c.eventOf p).toList := by
  have hrev : ∀ e ∈ (c.eventOf p).toList, e.revision = p.revision := fun e he =>
    revision_of_eventOf (Option.mem_toList.1 he)
  rcases lt_or_eq_of_le hW with hlt | heq
  · have hall : c.fresh (c.eventOf p).toList = (c.eventOf p).toList :=
      filter_eq_self.2 fun e he => by simpa [hrev e he] using hlt
    rw [hall]
    exact evs_last hs hp (by omega)
  · -- the watermark is that of the event, which is replayed
    have hnone : c.fresh (c.eventOf p).toList = [] :=
      filter_eq_nil_iff.2 fun e he => by simp [hrev e he, heq]
    rw [hnone, evs_eq_nil (by omega), evs_eq_nil (by omega)]
    rfl

/-- **The dispatch puts the event into the queue**, or drops it and says so. A watch that is not yet registered must not
want it. -/
lemma WatcherInv.dispatch (hlog : LogInv w E) (h : WatcherInv w E c) {cs : List Watcher} {buffer : ℕ}
    (hbuffer : 0 < buffer)
    (hp : w.pending = some p) (hcap : c.phase = .captured → c.watermarkRev < p.revision → c.eventOf p = none) :
    WatcherInv { w with watchers := cs, pending := none } E (c.dispatch buffer p) := by
  obtain ⟨X, hWX, hXD, hserved, hq⟩ := h.served
  obtain ⟨hmem, hrev, hpos⟩ := hlog.pending p hp
  have hD : w.dispatchedRev = p.revision - 1 := by rw [World.dispatchedRev, hp]
  have hW : c.watermarkRev ≤ p.revision := hrev ▸ h.watermark
  have hD' : World.dispatchedRev { w with watchers := cs, pending := none } = p.revision := hrev.symm
  have hXD' : X ≤ max c.watermarkRev p.revision := by omega
  have hevs := evs_dispatched hlog.sorted hmem hWX (hD ▸ hXD) hW hpos
  rw [← hD] at hevs
  unfold Watcher.dispatch
  cases hreg : c.registered with
  | false =>
    rw [if_neg nofun]
    refine ⟨h.watermark, X, hWX, hD' ▸ hXD', hserved, fun hphase => ?_, fun hreg' => ?_, fun hphase => ?_⟩
    · obtain ⟨hqueue, ho, hnone⟩ := hq.captured hphase
      refine ⟨hqueue, ho, ?_⟩
      rw [hD']
      rcases lt_or_eq_of_le hW with hlt | heq
      · rw [evs_last hlog.sorted hmem hlt, hcap hphase hlt, ← hD, hnone]
        rfl
      · exact evs_eq_nil heq.ge
    · exact absurd (hreg.symm.trans hreg') nofun
    · simp [registered, hphase] at hreg
  | true =>
    rw [if_pos rfl]
    have hcaptured : c.phase ≠ .captured := fun hphase => by simp [registered, hphase] at hreg
    have hmax : max c.watermarkRev w.dispatchedRev ≤ max c.watermarkRev p.revision := by omega
    split
    · next hev =>
      rw [hev, Option.toList_none, show c.fresh [] = [] from rfl, append_nil] at hevs
      refine ⟨h.watermark, X, hWX, hD' ▸ hXD', hserved, fun hphase => absurd hphase hcaptured, fun _ ho => ?_,
        fun hphase ho => ?_⟩
      · rw [hD', hevs]
        exact hq.whole hreg ho
      · obtain ⟨pre, post, Z, hpre, hne, hZ, hfresh⟩ := hq.head hphase ho
        exact ⟨pre, post, Z, hpre, hne, hD' ▸ hZ.trans hmax, hfresh⟩
    next e hev =>
    rw [hev, Option.toList_some] at hevs
    split
    · refine ⟨h.watermark, X, hWX, hD' ▸ hXD', hserved, fun hphase => absurd hphase hcaptured, fun _ ho => ?_,
        fun hphase ho => ?_⟩
      · change c.fresh (c.queue ++ [e]) = c.evs E X _
        rw [hD', hevs, ← hq.whole hreg ho]
        exact filter_append _ _
      · obtain ⟨pre, post, Z, hpre, hne, hZ, hfresh⟩ := hq.head hphase ho
        refine ⟨pre, post ++ [e], Z, ?_, hne, hD' ▸ hZ.trans hmax, hfresh⟩
        change c.queue ++ [e] = _
        rw [hpre, append_assoc]
    · next hfull =>
      refine ⟨h.watermark, X, hWX, hD' ▸ hXD', hserved, fun hphase => absurd hphase hcaptured, nofun,
        fun hphase _ => ?_⟩
      cases ho : c.overflow with
      | true =>
        obtain ⟨pre, post, Z, hpre, hne, hZ, hfresh⟩ := hq.head hphase ho
        exact ⟨pre, post, Z, hpre, hne, hD' ▸ hZ.trans hmax, hfresh⟩
      | false =>
        -- the first event that is dropped: the queue is whole up to it, and not empty
        refine ⟨c.queue, [], w.dispatchedRev, (append_nil _).symm, ?_, hD' ▸ (le_max_right _ _).trans hmax,
          hq.whole hreg ho⟩
        intro hnil
        rw [hnil] at hfull
        exact hfull hbuffer

lemma watcherInv_captured (hlog : LogInv w E) {cs : List Watcher} (key rangeEnd : Bytes) (startRevision : ℕ) :
    WatcherInv { w with watchers := cs } E ⟨key, rangeEnd, startRevision, w.currentRevision, .captured,
      [], false, []⟩ :=
  ⟨le_rfl, w.currentRevision, le_rfl, le_max_left _ _, ⟨rfl, rfl⟩,
    fun _ => ⟨rfl, rfl, evs_eq_nil hlog.dispatchedRev_le⟩, nofun, nofun⟩

/-- **An entry of the log adds an event that is to be dispatched**, or one that the watcher does not want. -/
lemma WatcherInv.apply {s' : Store} {event : Option ChangeEvent} {r : ℕ} (hlog : LogInv w E)
    (h : WatcherInv w E c) (hpending : w.pending = none) (hr : w.lastIndex < r) (hrev : entry.revision = r)
    (hlog' : LogInv (w.applied s' event r) (E ++ [entry]))
    (hevent : event = some entry ∨ event = none ∧ (c.phase ≠ .closed → c.eventOf entry = none)) :
    WatcherInv (w.applied s' event r) (E ++ [entry]) c := by
  have hindex := hlog.index
  have hD : w.dispatchedRev = w.currentRevision := by rw [World.dispatchedRev, hpending]
  have hcur : (w.applied s' event r).currentRevision = r := by
    have h1 := hlog'.bound entry (mem_append_right _ mem_cons_self)
    have h2 : (w.applied s' event r).currentRevision ≤ r := hlog'.index
    omega
  have hquiet : ∀ lo, c.evs E lo (r - 1) = c.evs E lo w.currentRevision := fun lo => by
    rw [Watcher.evs, window_eq_of_le hlog.bound (by omega)]
    rfl
  have hpast : ∀ lo hi, hi ≤ w.currentRevision → c.evs (E ++ [entry]) lo hi = c.evs E lo hi :=
    fun lo hi hhi => evs_append (by omega)
  rcases hevent with rfl | ⟨rfl, hnone⟩
  · have hD' : (w.applied s' (some entry) r).dispatchedRev = r - 1 := by rw [← hrev]; rfl
    refine h.carry hD.le (by omega) (by omega) hpast fun _ lo => ?_
    rw [hD', hD, evs_append (by omega), hquiet]
  · have hD' : (w.applied s' none r).dispatchedRev = r := hcur
    refine h.carry hD.le (by omega) (by omega) hpast fun hphase lo => ?_
    rw [hD', hD, ← hrev]
    rcases Nat.lt_or_ge lo entry.revision with hlo | hlo
    · rw [evs_last hlog'.sorted (mem_append_right _ mem_cons_self) hlo, hnone hphase, evs_append (by omega),
        hrev, hquiet, Option.toList_none, append_nil]
    · rw [evs_eq_nil hlo, evs_eq_nil (by omega)]

end

/-! ### Runs -/

/-- Where nothing is lost: a transaction has no deletes and no empty keys, no open watch covers the manifest of an
object command, no event that a watch wants is dispatched between its reading of the revision and its registration,
the changelog is not compacted above the start between the check and the replay, and no snapshot is installed. -/
def Undisturbed (w : World) : Action → Prop
  | .apply e _ => match e.payload with
    | .normal cmd => PlainTxn w.store cmd ∧
        ∀ k ∈ cmd.manifest, ∀ c ∈ w.watchers, c.phase ≠ .closed → keyMatches k c.key c.rangeEnd = false
    | _ => True
  | .dispatch => ∀ p ∈ w.pending, ∀ c ∈ w.watchers, c.phase = .captured → c.watermarkRev < p.revision →
      c.eventOf p = none
  | .go i => ∀ c ∈ w.watchers[i]?, c.phase = .checked → w.store.compactedRevision ≤ c.startRevision
  | .installSnapshot _ => False
  | _ => True

instance (w : World) (a : Action) : Decidable (Undisturbed w a) := by
  unfold Undisturbed
  split
  · next e _ =>
    obtain ⟨logId, payload⟩ := e
    dsimp only
    split <;> infer_instance
  all_goals infer_instance

/-- Every watcher that was not told that events are missing is at its place. -/
def WorldInv (w : World) : Prop :=
  ∃ E, LogInv w E ∧ ∀ c ∈ w.watchers, c.told = false → WatcherInv w E c

section

variable {cfg : WatchConfig} {w : World} {E : List ChangeEvent}

lemma LogInv.congr (h : LogInv w E) (cs : List Watcher) {pending : Option ChangeEvent}
    (hp : ∀ p ∈ pending, p ∈ w.pending) : LogInv { w with watchers := cs, pending } E :=
  ⟨h.rows, h.sorted, h.bound, h.typed, h.changelog, h.cut, h.index, h.states, fun p hmem => h.pending p (hp p hmem)⟩

variable {c : Watcher}

lemma WatcherInv.congr (h : WatcherInv w E c) (hlog : LogInv w E) (cs : List Watcher) :
    WatcherInv { w with watchers := cs } E c :=
  h.carry hlog.dispatchedRev_le le_rfl le_rfl (fun _ _ _ => rfl) fun _ _ => rfl

/-- A step of one watch: the watch grows what it has delivered and stays at its place. -/
lemma WorldInv.modify (h : WorldInv w) {f : Watcher → Watcher} {i : ℕ}
    (hgrow : ∀ c, ∃ more, (f c).delivered = c.delivered ++ more)
    (hf : ∀ E c, w.watchers[i]? = some c → LogInv w E → WatcherInv w E c → (f c).told = false → WatcherInv w E (f c)) :
    WorldInv { w with watchers := w.watchers.modify i f } := by
  obtain ⟨E, hlog, hall⟩ := h
  refine ⟨E, hlog.congr _ fun _ hp => hp, fun c hc hnt => ?_⟩
  refine WatcherInv.congr ?_ hlog _
  rcases mem_modify hc with hc | ⟨a, ha, rfl⟩
  · exact hall c hc hnt
  refine hf E a ha hlog (hall a (mem_of_getElem? ha) ?_) hnt
  obtain ⟨more, hmore⟩ := hgrow a
  unfold Watcher.told at hnt ⊢
  rw [hmore, any_append, Bool.or_eq_false_iff] at hnt
  exact hnt.1

lemma delivered_advance (cfg : WatchConfig) (s : Store) (n : ℕ) (c : Watcher) :
    ∃ more, (c.advance cfg s n).delivered = c.delivered ++ more := by
  unfold Watcher.advance deliver
  split <;> (repeat' split) <;> first | exact ⟨[], (append_nil _).symm⟩ | exact ⟨_, rfl⟩

lemma WorldInv.apply (hmode : cfg.raft.mode = .logIndex) (h : WorldInv w) {e : Entry} {nowMs : ℤ}
    (hu : Undisturbed w (.apply e nowMs)) : WorldInv (step cfg w (.apply e nowMs)).1 := by
  obtain ⟨E, hlog, hall⟩ := h
  simp only [step]
  split
  · next hc =>
    obtain ⟨hpending, hr, hv1⟩ := hc
    split
    · next s event hok =>
      have hplain : ∀ cmd, e.payload = .normal cmd → PlainTxn w.store cmd := by
        intro cmd hcmd
        simp only [Undisturbed, hcmd] at hu
        exact hu.1
      rcases hlog.apply hmode hr hv1 hplain hok with ⟨rfl, hmono, hlog'⟩ | ⟨cmd, entry, hcmd, hrev, hann, hlog'⟩
      · refine ⟨E, hlog', fun c hc hnt => ?_⟩
        have hD : w.dispatchedRev = w.currentRevision := by rw [World.dispatchedRev, hpending]
        have hD' : (w.applied s none e.logId.index).dispatchedRev = s.currentRevision .logIndex := rfl
        refine (hall c hc hnt).carry hD.le hmono (hD.le.trans hmono) (fun _ _ _ => rfl) fun _ lo => ?_
        change c.evs E lo (s.currentRevision .logIndex) = _
        rw [hD, Watcher.evs, window_eq_of_le hlog.bound hmono]
        rfl
      · refine ⟨E ++ [entry], hlog', fun c hc hnt => ?_⟩
        refine (hall c hc hnt).apply hlog hpending hr hrev hlog' ?_
        cases hann with
        | event => exact .inl rfl
        | silent hkeys =>
          refine .inr ⟨rfl, fun hphase => eventOf_eq_none fun ch hch => ?_⟩
          simp only [Undisturbed, hcmd] at hu
          exact hu.2 ch.key (hkeys ch hch).symm c hc hphase
    · exact ⟨E, hlog, hall⟩
  · exact ⟨E, hlog, hall⟩

lemma WorldInv.step (hmode : cfg.raft.mode = .logIndex) (h : WorldInv w) {a : Action} (hu : Undisturbed w a) :
    WorldInv (step cfg w a).1 := by
  cases a with
  | apply e nowMs => exact h.apply hmode hu
  | dispatch =>
    obtain ⟨E, hlog, hall⟩ := h
    simp only [Watch.step]
    split
    · next p hp =>
      refine ⟨E, hlog.congr _ nofun, fun c hc hnt => ?_⟩
      obtain ⟨c, hmem, rfl⟩ := mem_map.1 hc
      have hnt' : c.told = false := by
        have hsame : (c.dispatch cfg.watchBuffer p).delivered = c.delivered := by
          unfold Watcher.dispatch
          repeat' split
          all_goals rfl
        unfold Watcher.told at hnt ⊢
        rwa [hsame] at hnt
      exact (hall c hmem hnt').dispatch hlog cfg.watchBuffer_pos hp (hu p hp c hmem)
    · exact ⟨E, hlog, hall⟩
  | watch key rangeEnd startRevision =>
    simp only [Watch.step]
    split
    · exact h
    obtain ⟨E, hlog, hall⟩ := h
    refine ⟨E, hlog.congr _ fun _ hp => hp, fun c hc hnt => ?_⟩
    rcases mem_append_one.1 hc with hc | rfl
    · exact (hall c hc hnt).congr hlog _
    · exact watcherInv_captured hlog key rangeEnd startRevision
  | go i =>
    exact h.modify (delivered_advance cfg w.store _) fun E c hc hlog hinv hnt => hinv.advance hlog cfg _ (hu c hc) hnt
  | readFails i =>
    refine h.modify (fun c => ?_) fun E c _ _ hinv hnt => ?_
    · unfold readFails deliver
      split <;> first | exact ⟨[], (append_nil _).symm⟩ | exact ⟨_, rfl⟩
    · -- a failure is told, and otherwise nothing happens
      unfold readFails at hnt ⊢
      split at hnt
      · rw [told_deliver _ (.inr rfl)] at hnt
        cases hnt
      · rw [told_deliver _ (.inr rfl)] at hnt
        cases hnt
      · exact hinv
  | close i => exact h.modify (fun c => ⟨[], (append_nil _).symm⟩) fun E c _ _ hinv _ => hinv.close
  | installSnapshot data => exact hu.elim

/-! ### Following the store -/

lemma after_le_base (c : Watcher) : c.after ≤ c.base := by
  unfold Watcher.after Watcher.base
  split <;> omega

lemma mirrors_evs (hlog : LogInv w E) (c : Watcher) {T : ℕ} (hT : c.base ≤ T) :
    Mirrors w c ((c.evs E c.after T).map convertWatchEventToResponse) T := by
  intro k hk
  have htyped : ∀ e ∈ window E c.after T, Typed e := fun e he => hlog.typed e (mem_window.1 he).1
  have hview : (w.stateAt c.base).get k = valueUpTo E c.base k := hlog.states _ _
  rw [hlog.states, ← overwrite_window hlog.sorted (after_le_base c) hT k]
  exact foldl_evs htyped hk hview

/-- What was delivered up to `T` is all the events up to `T`, once one from `T` on was. -/
lemma delivered_upTo {X T : ℕ} (hs : InOrder E) (hafter : c.after ≤ T)
    {rest : List WatchResponse} (hdel : c.delivered ++ rest = (c.evs E c.after X).map convertWatchEventToResponse)
    (hT : ∃ r ∈ c.delivered, T ≤ r.revision) :
    (c.delivered.filter fun r => decide (r.revision ≤ T)) = (c.evs E c.after T).map convertWatchEventToResponse := by
  obtain ⟨r, hr, hTr⟩ := hT
  have hX : r.revision ≤ X := by
    obtain ⟨e, he, rfl⟩ := mem_map.1 (hdel ▸ mem_append_left rest hr : r ∈ (c.evs E c.after X).map _)
    exact (mem_evs he).2
  have hsorted : (c.delivered ++ rest).Pairwise fun a b => a.revision < b.revision := by
    rw [hdel]
    exact pairwise_map.2 (evs_sorted hs)
  -- what is still to come is above `T`
  have hrest : (rest.filter fun r => decide (r.revision ≤ T)) = [] := by
    refine filter_eq_nil_iff.2 fun x hx => ?_
    have := (pairwise_append.1 hsorted).2.2 r hr x hx
    simp only [decide_eq_true_eq]
    omega
  have hevs : ((c.evs E c.after X).filter fun e => decide (e.revision ≤ T)) = c.evs E c.after T := by
    rw [evs_split hs hafter (hTr.trans hX), filter_append, filter_eq_self.2 fun e he => ?_,
      filter_eq_nil_iff.2 fun e he => ?_, append_nil]
    · have := (mem_evs he).1
      simp only [decide_eq_true_eq]
      omega
    · simpa using (mem_evs he).2
  have := congrArg (List.filter fun r => decide (r.revision ≤ T)) hdel
  rw [filter_append, hrest, append_nil, filter_map] at this
  rw [this, ← hevs]
  rfl

lemma WatcherInv.follows (hlog : LogInv w E) (h : WatcherInv w E c) : Follows w c := by
  refine ⟨fun T hT hr => ?_, fun hup hbase => ?_⟩
  · obtain ⟨X, -, -, hserved, -⟩ := h.close.served
    obtain ⟨rest, hrest⟩ : ∃ rest, c.delivered ++ rest = (c.evs E c.after X).map convertWatchEventToResponse := hserved
    rw [delivered_upTo hlog.sorted ((after_le_base c).trans hT) hrest hr]
    exact mirrors_evs hlog c hT
  · obtain ⟨hpending, hqueue, ho, looked, hphase⟩ := hup
    obtain ⟨X, hWX, hXD, hserved, hq⟩ := h.served
    have hreg : c.registered = true := by simp [registered, hphase]
    have hD : w.dispatchedRev = w.currentRevision := by rw [World.dispatchedRev, hpending]
    have hdel : c.delivered = (c.evs E c.after X).map convertWatchEventToResponse := by
      rw [Served, hphase] at hserved
      exact hserved
    have hnone : c.evs E X w.currentRevision = [] := by
      rw [← hD, ← hq.whole hreg ho, hqueue]
      rfl
    have hX : X ≤ w.currentRevision := by
      have := h.watermark
      omega
    have hall : c.evs E c.after w.currentRevision = c.evs E c.after X := by
      rw [evs_split hlog.sorted ((after_le c).trans hWX) hX, hnone, append_nil]
    rw [hdel, ← hall]
    exact mirrors_evs hlog c hbase

/-- **A watcher follows the store.** In a run in which nothing is lost, folding what was delivered to a watcher, which
was not told otherwise, over the watched keys at its start gives the watched keys after every revision. -/
theorem watcher_follows_store (cfg : WatchConfig) (hmode : cfg.raft.mode = .logIndex) (as : List Action)
    (h : Along (step cfg) Undisturbed World.start as) :
    ∀ c ∈ (exec (step cfg) World.start as).watchers, c.told = false → Follows (exec (step cfg) World.start as) c := by
  have hinv := (along_inv WorldInv Undisturbed ⟨[], logInv_start, nofun⟩ h fun w a hu hw => hw.step hmode hu).1
  obtain ⟨E, hlog, hall⟩ := hinv
  exact fun c hc hnt => (hall c hc hnt).follows hlog

def v1Config : WatchConfig := ⟨{ plainConfig with mode := .logIndex }, 4, 8, false, by decide⟩

def entryAt (index : ℕ) (cmd : Command) : Action := .apply ⟨⟨1, 1, index⟩, .normal cmd⟩ 0

/-- A watch from revision 2 on, while a key is written again and the range is deleted. -/
def replayRun : List Action :=
  [entryAt 1 (.put [97] [1] none), .dispatch, entryAt 2 (.put [97, 98] [2] none), .dispatch,
    .watch [97] [] 2, .go 0, .go 0,
    entryAt 3 (.txn [] [.put [97] [3] none] []), .go 0, .dispatch, .go 0, .go 0, .go 0, .go 0, .go 0, .go 0,
    entryAt 4 (.deleteRange [97] [98]), .dispatch, .go 0, .go 0]

theorem watcher_follows_store_replayed :
    Along (step v1Config) Undisturbed World.start replayRun ∧
      (exec (step v1Config) World.start replayRun).watchers.map (fun c => c.delivered.map WatchResponse.revision) =
        [[2, 3, 4]] ∧
      ∀ c ∈ (exec (step v1Config) World.start replayRun).watchers,
        Follows (exec (step v1Config) World.start replayRun) c := by
  have halong : Along (step v1Config) Undisturbed World.start replayRun := by decide +kernel
  have hnt : ∀ c ∈ (exec (step v1Config) World.start replayRun).watchers, c.told = false := by decide +kernel
  exact ⟨halong, by decide +kernel, fun c hc => watcher_follows_store v1Config rfl replayRun halong c hc (hnt c hc)⟩

def txnDeleteRun : List Action :=
  [entryAt 1 (.put [97] [1] none), .dispatch, .watch [97] [] 0, .go 0, .go 0,
    entryAt 2 (.txn [] [.delete [97]] []), .dispatch, .go 0, .go 0]

/-- A key is written between the reading of the revision and the registration. -/
def lateRun : List Action :=
  [.watch [97] [] 0, entryAt 1 (.put [97] [1] none), .dispatch, .go 0, .go 0]

lemma not_follows {w : World} {c : Watcher} (hup : CaughtUp w c) (hbase : c.base ≤ w.currentRevision) {k : Bytes}
    (hk : keyMatches k c.key c.rangeEnd = true)
    (hne : c.delivered.foldl WatchResponse.fold (w.stateAt c.base).get k ≠ (w.stateAt w.currentRevision).get k) :
    ¬ Follows w c :=
  fun h => hne (h.2 hup hbase k hk)

/-- **A watcher that misses changes**: the deletion in a transaction is delivered as a write of the empty value, and the
write before the registration is not delivered. -/
theorem watcher_misses_changes : (∃ c ∈ (exec (step v1Config) World.start txnDeleteRun).watchers, c.told = false ∧
      c.delivered = [⟨.put, [([97], [])], 2⟩] ∧ ¬ Follows (exec (step v1Config) World.start txnDeleteRun) c) ∧
    (∃ c ∈ (exec (step v1Config) World.start lateRun).watchers, c.told = false ∧
      c.delivered = [] ∧ ¬ Follows (exec (step v1Config) World.start lateRun) c) := by
  refine ⟨⟨⟨[97], [], 0, 1, .live false, [], false, [⟨.put, [([97], [])], 2⟩]⟩, by decide +kernel, rfl, rfl, ?_⟩,
    ⟨⟨[97], [], 0, 0, .live false, [], false, []⟩, by decide +kernel, rfl, rfl, ?_⟩⟩
  · exact @not_follows _ _ ⟨by decide +kernel, rfl, rfl, false, rfl⟩ (by decide +kernel) [97] rfl (by decide +kernel)
  · exact @not_follows _ _ ⟨by decide +kernel, rfl, rfl, false, rfl⟩ (by decide +kernel) [97] rfl (by decide +kernel)

end

end Coord.Watch
