import Coord.Raft.RowsLog

/-!
# A moved range arrives as it was

The pages of a range are its live rows in key order, cut into pieces.  They are accepted by the receiver, and leave
exactly these rows there, when no key is reserved and no row is ahead of the source's revision; an attempt that stops
anywhere and is made again changes nothing.
-/

namespace Coord.SplitMerge

open Coord.Lib Coord.Storage Coord.Raft Store Table List

/-! ### Pages -/

lemma lt_iff_append_zero_le (a k : Bytes) : a < k ↔ a ++ [0] ≤ k := by
  rw [← not_lt]
  induction a generalizing k with
  | nil =>
    cases k with
    | nil => simp
    | cons b k =>
      have hnil : ¬ k < [] := not_lt_nil k
      have hb : ¬ b < 0 := Fin.not_lt_zero b
      simp [cons_lt_cons_iff, hnil, hb]
  | cons x a ih =>
    cases k with
    | nil => simp
    | cons b k =>
      rw [cons_append, cons_lt_cons_iff, cons_lt_cons_iff, ih]
      rcases lt_trichotomy x b with h | rfl | h
      · simp [h, h.not_gt, h.ne']
      · simp
      · simp [h, h.not_gt, h.ne']

/-- The live metadata of a range after the key `after`, in key order. -/
def liveAfter (s : Store) (start stop : Bytes) (after : Option Bytes) : List (Bytes × KvMetadata) :=
  s.kvMeta.rows.filter fun r => decide (∀ a ∈ after, a < r.1) && (inRange start stop r.1 && !r.2.deleted)

def versioned (s : Store) (r : Bytes × KvMetadata) : VersionedKv := (r.1, (s.kv.get r.1).getD [], r.2)

lemma exportRows_eq {s : Store} {l : List (Bytes × KvMetadata)} (h : ∀ r ∈ l, (s.kv.get r.1).isSome = true) :
    s.exportRows l = .ok (l.map (versioned s)) := by
  induction l with
  | nil => rfl
  | cons r l ih =>
    obtain ⟨v, hv⟩ := Option.isSome_iff_exists.1 (h r mem_cons_self)
    have hrest := ih fun r hr => h r (mem_cons_of_mem _ hr)
    simp [exportRows, hv, hrest, versioned]

variable {after : Option Bytes}

lemma liveAfter_eq (s : Store) {start stop lower : Bytes}
    (h : after = none ∧ lower = start ∨ ∃ a, after = some a ∧ start ≤ a ∧ lower = a ++ [0]) :
    (s.kvMeta.rows.filter fun r => inRange lower stop r.1 && !r.2.deleted) = liveAfter s start stop after := by
  refine filter_congr fun r _ => ?_
  rcases h with ⟨rfl, rfl⟩ | ⟨a, rfl, ha, rfl⟩
  · simp
  rw [Bool.eq_iff_iff]
  simp only [inRange, Option.mem_def, Option.some.injEq, forall_eq', Bool.and_eq_true, decide_eq_true_eq,
    ← lt_iff_append_zero_le]
  constructor
  · rintro ⟨⟨hlt, hstop⟩, hlive⟩
    exact ⟨hlt, ⟨ha.trans hlt.le, hstop⟩, hlive⟩
  · rintro ⟨hlt, ⟨-, hstop⟩, hlive⟩
    exact ⟨⟨hlt, hstop⟩, hlive⟩

lemma liveAfter_sorted (s : Store) (start stop : Bytes) (after : Option Bytes) :
    (liveAfter s start stop after).Pairwise fun a b => a.1 < b.1 := s.kvMeta.sorted.filter _

variable {start stop : Bytes}

lemma liveAfter_drop {s : Store} {n : ℕ} {a : Bytes}
    (ha : (((liveAfter s start stop after).take n).getLast?).map Prod.fst = some a) :
    liveAfter s start stop (some a) = (liveAfter s start stop after).drop n := by
  obtain ⟨last, hlast, rfl⟩ := Option.map_eq_some_iff.1 ha
  rw [← filter_lt_getLast (liveAfter_sorted s start stop after) hlast]
  have hmem : last ∈ liveAfter s start stop after := List.mem_of_mem_take (List.mem_of_getLast? hlast)
  have hbelow : ∀ b ∈ after, b < last.1 := by
    have := (List.mem_filter.1 hmem).2
    simp only [Bool.and_eq_true, decide_eq_true_eq] at this
    exact this.1
  rw [liveAfter, liveAfter, filter_filter]
  refine filter_congr fun r _ => ?_
  rw [Bool.eq_iff_iff]
  simp only [Option.mem_def, Option.some.injEq, forall_eq', decide_eq_true_eq, Bool.and_eq_true]
  constructor
  · rintro ⟨hlt, hlive⟩
    exact ⟨hlt, fun b hb => (hbelow b hb).trans hlt, hlive⟩
  · rintro ⟨hlt, -, hlive⟩
    exact ⟨hlt, hlive⟩

section

variable {s : Store} {start stop : Bytes} {pageSize : ℕ}

/-- **A page**: the first rows after `after`, and the last key of the page if there are more. -/
lemma exportRangePage_eq {expected : Option ℕ} (hafter : ∀ a ∈ after, start ≤ a)
    (hexp : ∀ e ∈ expected, e = s.currentRevision .commitTs)
    (hval : ∀ r ∈ liveAfter s start stop after, (s.kv.get r.1).isSome = true) :
    s.exportRangePage .commitTs start stop after pageSize expected =
      .ok ⟨(takeLimit pageSize (liveAfter s start stop after)).map (versioned s),
        if 0 < pageSize ∧ pageSize < (liveAfter s start stop after).length then
          ((takeLimit pageSize (liveAfter s start stop after)).getLast?).map Prod.fst else none,
        s.currentRevision .commitTs⟩ := by
  have hfilter : (expected.filter fun e => decide (e ≠ s.currentRevision .commitTs)) = none := by
    cases expected with
    | none => rfl
    | some e => simp [hexp e rfl]
  have hrows : s.exportRows (takeLimit pageSize (liveAfter s start stop after)) =
      .ok ((takeLimit pageSize (liveAfter s start stop after)).map (versioned s)) := by
    refine exportRows_eq fun r hr => hval r ?_
    unfold takeLimit at hr
    split at hr
    · exact hr
    · exact List.mem_of_mem_take hr
  unfold exportRangePage
  extract_lets lower revision live hasMore
  have hlower : after = none ∧ lower = start ∨ ∃ a, after = some a ∧ start ≤ a ∧ lower = a ++ [0] := by
    cases after with
    | none => exact .inl ⟨rfl, rfl⟩
    | some a => exact .inr ⟨a, rfl, hafter a rfl, by simp [lower, Option.filter, hafter a rfl]⟩
  have hlive : live = liveAfter s start stop after := liveAfter_eq s hlower
  split
  · next hempty =>
    -- the scan would begin at the end of the range: there is nothing left
    have hnil : liveAfter s start stop after = [] := by
      rw [← hlive]
      refine filter_eq_nil_iff.2 fun r _ hr => ?_
      simp only [inRange, Bool.and_eq_true, decide_eq_true_eq] at hr
      rcases hr.1.2 with h | h
      · exact hempty.1 h
      · exact absurd (h.trans_le (hempty.2.trans hr.1.1)) (lt_irrefl _)
    simp [hnil, takeLimit, revision]
  · rw [hfilter]
    dsimp only
    simp only [hasMore, hlive, hrows, getLast?_map, Option.map_map, decide_eq_true_eq]
    rfl

/-- The commands for a list of pages: the last page is marked. -/
def pageCommands (sealPriorHistory : Bool) (start stop : Bytes) (watermark : ℕ) :
    List (List VersionedKv) → List Command
  | [] => []
  | [rows] => [importCommand sealPriorHistory start stop rows watermark true]
  | rows :: next :: rest =>
    importCommand sealPriorHistory start stop rows watermark false ::
      pageCommands sealPriorHistory start stop watermark (next :: rest)

theorem importLoop_spec (hval : ∀ r ∈ liveAfter s start stop none, (s.kv.get r.1).isSome = true)
    (sealed : Bool) {fuel : ℕ} {after : Option Bytes} {watermark : Option ℕ}
    (hfuel : (liveAfter s start stop after).length < fuel) (hafter : ∀ a ∈ after, start ≤ a)
    (hexp : ∀ e ∈ watermark, e = s.currentRevision .commitTs) :
    ∃ pages, pages ≠ [] ∧ pages.flatten = (liveAfter s start stop after).map (versioned s) ∧
      importLoop .commitTs s start stop pageSize sealed fuel after watermark =
        .ok (pageCommands sealed start stop (s.currentRevision .commitTs) pages) := by
  induction fuel generalizing after watermark with
  | zero => exact absurd hfuel (Nat.not_lt_zero _)
  | succ fuel ih =>
    have hsub : ∀ r ∈ liveAfter s start stop after, r ∈ liveAfter s start stop none := by
      intro r hr
      obtain ⟨hrow, hr⟩ := List.mem_filter.1 hr
      rw [Bool.and_eq_true] at hr
      exact List.mem_filter.2 ⟨hrow, by simpa using hr.2⟩
    have hpin : watermark.getD (s.currentRevision .commitTs) = s.currentRevision .commitTs := by
      cases watermark with
      | none => rfl
      | some e => exact hexp e rfl
    rw [importLoop, exportRangePage_eq hafter hexp fun r hr => hval r (hsub r hr)]
    dsimp only
    rw [hpin]
    by_cases hmore : 0 < pageSize ∧ pageSize < (liveAfter s start stop after).length
    · have htake : takeLimit pageSize (liveAfter s start stop after) = (liveAfter s start stop after).take pageSize :=
        if_neg (by omega)
      obtain ⟨last, hlast⟩ : ∃ last, ((liveAfter s start stop after).take pageSize).getLast? = some last := by
        rw [← Option.isSome_iff_exists, getLast?_isSome, ne_eq, take_eq_nil_iff, ← length_eq_zero_iff]
        omega
      have hnext : (((liveAfter s start stop after).take pageSize).getLast?).map Prod.fst = some last.1 := by
        rw [hlast]
        rfl
      have hdrop := liveAfter_drop hnext
      have hstart : start ≤ last.1 := by
        have := (List.mem_filter.1 (List.mem_of_mem_take (List.mem_of_getLast? hlast))).2
        simp only [inRange, Bool.and_eq_true, decide_eq_true_eq] at this
        exact this.2.1.1
      have hrest : (liveAfter s start stop (some last.1)).length < fuel := by
        rw [hdrop, length_drop]
        omega
      obtain ⟨pages, hne, hflat, hloop⟩ := @ih (some last.1) (some (s.currentRevision .commitTs)) hrest
        (by rintro a ⟨⟩; exact hstart) (by rintro e ⟨⟩; rfl)
      rw [htake, if_pos hmore, hnext, hloop]
      refine ⟨((liveAfter s start stop after).take pageSize).map (versioned s) :: pages, cons_ne_nil _ _, ?_, ?_⟩
      · rw [flatten_cons, hflat, hdrop, ← map_append, take_append_drop]
      · cases pages with
        | nil => exact absurd rfl hne
        | cons next rest => rfl
    · have htake : takeLimit pageSize (liveAfter s start stop after) = liveAfter s start stop after := by
        unfold takeLimit
        split
        · rfl
        · exact take_of_length_le (by omega)
      rw [htake, if_neg hmore]
      exact ⟨[(liveAfter s start stop after).map (versioned s)], cons_ne_nil _ _, by simp, rfl⟩

end

/-! ### The receiving side -/

def liveRow (row : KeyRow) : KeyRow := if (row.2.map fun m => !m.deleted).getD false then row else (none, none)

structure IsLive (src : Store) (start stop : Bytes) (row : VersionedKv) : Prop where
  inRange : inRange start stop row.1 = true
  live : row.2.2.deleted = false
  row : src.row row.1 = (some row.2.1, some row.2.2)

variable {row : VersionedKv} {src : Store}

lemma IsLive.liveRow_eq (h : IsLive src start stop row) :
    liveRow (src.row row.1) = (some row.2.1, some row.2.2) := by
  simp [liveRow, h.row, h.live]

lemma mem_liveRows (hsrc : RowsWhole src) :
    row ∈ (liveAfter src start stop none).map (versioned src) ↔ IsLive src start stop row := by
  constructor
  · intro h
    obtain ⟨⟨key, m⟩, hr, rfl⟩ := List.mem_map.1 h
    obtain ⟨hrow, hr⟩ := List.mem_filter.1 hr
    simp only [Bool.and_eq_true, Bool.not_eq_true'] at hr
    have hm := mem_rows.1 hrow
    obtain ⟨v, hv⟩ := Option.isSome_iff_exists.1 (hsrc key m hm).1
    exact ⟨hr.2.1, hr.2.2, by simp [Store.row, versioned, hv, hm]⟩
  · rintro ⟨hin, hlive, hrow⟩
    obtain ⟨hv, hm⟩ := Prod.mk.injEq _ _ _ _ ▸ hrow
    refine List.mem_map.2 ⟨(row.1, row.2.2), List.mem_filter.2 ⟨mem_rows.2 hm, by simp [hin, hlive]⟩, ?_⟩
    simp [versioned, hv]

/-- In the middle of an attempt the receiver holds some of the live rows of the range, and nothing else in it. -/
def Partly (src : Store) (start stop : Bytes) (t : Store) : Prop :=
  ∀ k, inRange start stop k = true → t.row k = (none, none) ∨ t.row k = liveRow (src.row k)

variable {rows : List VersionedKv}

section

variable {src : Store} {start stop : Bytes} {t : Store}

lemma importRow_partly (ht : Partly src start stop t) (hrow : IsLive src start stop row) :
    ∃ t' b, t.importRow row = .ok (t', b) ∧
      ∀ k, t'.row k = if k = row.1 then (some row.2.1, some row.2.2) else t.row k := by
  rcases ht row.1 hrow.inRange with hold | hold
  · have hm : t.kvMeta.get row.1 = none := congrArg Prod.snd hold
    refine ⟨{ t with kv := t.kv.insert row.1 row.2.1, kvMeta := t.kvMeta.insert row.1 row.2.2 }, true, ?_, fun k => ?_⟩
    · simp [importRow, hm]
    · by_cases hk : k = row.1
      · simp [hk, Store.row]
      · simp [hk, Store.row, get_insert_ne _ _ hk]
  · rw [hrow.liveRow_eq] at hold
    have hv : t.kv.get row.1 = some row.2.1 := congrArg Prod.fst hold
    have hm : t.kvMeta.get row.1 = some row.2.2 := congrArg Prod.snd hold
    refine ⟨t, false, by simp [importRow, hm, hv], fun k => ?_⟩
    split
    · next hk => rw [hk, hold]
    · rfl

lemma Partly.write {t' : Store} (ht : Partly src start stop t) {keys : List Bytes}
    (h : ∀ k, t'.row k = if k ∈ keys then liveRow (src.row k) else t.row k) : Partly src start stop t' := by
  intro k hk
  rw [h k]
  split
  · exact .inr rfl
  · exact ht k hk

lemma importRows_partly (ht : Partly src start stop t)
    (hrows : ∀ row ∈ rows, IsLive src start stop row) (imported : ℕ) :
    ∃ t' n, t.importRows imported rows = .ok (t', n) ∧
      ∀ k, t'.row k = if k ∈ rows.map Prod.fst then liveRow (src.row k) else t.row k := by
  induction rows generalizing t imported with
  | nil => exact ⟨t, imported, rfl, fun k => rfl⟩
  | cons row rows ih =>
    have hlive := hrows row mem_cons_self
    obtain ⟨t₁, b, himport, hrow₁⟩ := importRow_partly ht hlive
    have hrow : ∀ k, t₁.row k = if k ∈ [row.1] then liveRow (src.row k) else t.row k := by
      intro k
      rw [hrow₁ k]
      simp only [mem_singleton]
      split
      · next hk => rw [hk, hlive.liveRow_eq]
      · rfl
    obtain ⟨t', n, hrest, hrow'⟩ := ih (ht.write hrow) (fun r hr => hrows r (mem_cons_of_mem _ hr))
      (if b then imported + 1 else imported)
    refine ⟨t', n, by rw [importRows, himport]; exact hrest, fun k => ?_⟩
    rw [hrow' k, hrow k]
    by_cases hk : k = row.1 <;> by_cases hmem : k ∈ rows.map Prod.fst <;> simp [hk, hmem]

end

/-! ### Which rows the receiver accepts -/

/-- No live row of the range has a reserved key or is ahead of the revision of its store. -/
def Movable (src : Store) (start stop : Bytes) : Prop :=
  ∀ key m, src.kvMeta.get key = some m → inRange start stop key = true → m.deleted = false →
    reservedPrefix.isPrefixOf key = false ∧ m.createRevision ≤ m.modRevision ∧
      m.modRevision ≤ src.currentRevision .commitTs

lemma movable_iff (hsrc : RowsWhole src) :
    Movable src start stop ↔
      ∀ row, IsLive src start stop row → ImportRowOk start stop (src.currentRevision .commitTs) row := by
  constructor
  · rintro h row ⟨hin, hlive, hrow⟩
    have hm : src.kvMeta.get row.1 = some row.2.2 := congrArg Prod.snd hrow
    obtain ⟨hkey, hcreate, hmod⟩ := h row.1 row.2.2 hm hin hlive
    obtain ⟨-, hc, hr, hv⟩ := hsrc row.1 row.2.2 hm
    exact ⟨hin, hkey, hlive, hr, hmod, hc, hcreate, hv⟩
  · intro h key m hm hin hlive
    obtain ⟨v, hv⟩ := Option.isSome_iff_exists.1 (hsrc key m hm).1
    have := h (key, v, m) ⟨hin, hlive, by simp [Store.row, hv, hm]⟩
    exact ⟨this.unreserved, this.create_le, this.mod_le⟩

variable {es : List Entry}

section

variable {src : Store} {start stop : Bytes} {t : Store} {cfg : Config} {clock : ℕ → ℤ} {sealed : Bool}

lemma applyRangeImport_partly (hsrc : RowsWhole src) (hmov : Movable src start stop) (ht : Partly src start stop t)
    {rows : List VersionedKv} (hrows : ∀ row ∈ rows, IsLive src start stop row) (hnodup : (rows.map Prod.fst).Nodup)
    (done : Bool) (applied : AppliedLogId) :
    ∃ t' n, t.applyRangeImport .commitTs start stop rows (src.currentRevision .commitTs) sealed done applied =
        .ok (t', n) ∧
      ∀ k, t'.row k = if k ∈ rows.map Prod.fst then liveRow (src.row k) else t.row k := by
  have hok : ∀ row ∈ rows, ImportRowOk start stop (src.currentRevision .commitTs) row := fun row hr =>
    (movable_iff hsrc).1 hmov row (hrows row hr)
  have hvalid : validateImport start stop (src.currentRevision .commitTs) [] rows = .ok () :=
    validateImport_iff.2 ⟨fun row hr => ⟨hok row hr, not_mem_nil⟩, hnodup⟩
  have hzero : ¬ (src.currentRevision .commitTs = 0 ∧ rows ≠ []) := by
    rintro ⟨h0, hne⟩
    obtain ⟨row, hr⟩ := exists_mem_of_ne_nil rows hne
    have := (hok row hr).mod_pos
    have := (hok row hr).mod_le
    omega
  obtain ⟨t', n, himport, hrow⟩ := importRows_partly ht hrows 0
  rw [applyRangeImport, if_neg (by simp), if_neg hzero, hvalid]
  dsimp only
  rw [himport]
  refine ⟨_, n, rfl, fun k => (row_congr ?_ ?_ k).trans (hrow k)⟩
  · cases done <;> cases sealed <;> rfl
  · cases done <;> cases sealed <;> rfl

/-- A page whose rows are live rows of the source. -/
def IsPage (src : Store) (start stop : Bytes) (sealPriorHistory : Bool) (cmd : Command) : Prop :=
  ∃ rows done, cmd = importCommand sealPriorHistory start stop rows (src.currentRevision .commitTs) done ∧
    (∀ row ∈ rows, IsLive src start stop row) ∧ (rows.map Prod.fst).Nodup

variable {e : Entry}

lemma payload_of_command {cmd : Command} (h : e.command = some cmd) : e.payload = .normal cmd := by
  unfold Entry.command at h
  split at h
  · next c hc => rw [hc, Option.some.inj h]
  · cases h

lemma applyEntry_page (hmode : cfg.mode = .commitTs) (hsrc : RowsWhole src) (hmov : Movable src start stop)
    (ht : Partly src start stop t) (hrows : ∀ row ∈ rows, IsLive src start stop row)
    (hnodup : (rows.map Prod.fst).Nodup) {done : Bool} (nowMs : ℤ)
    (he : e.command = some (importCommand sealed start stop rows (src.currentRevision .commitTs) done)) :
    ∃ t' o, applyEntry cfg nowMs t e = .ok (t', o) ∧
      ∀ k, t'.row k = if k ∈ rows.map Prod.fst then liveRow (src.row k) else t.row k := by
  obtain ⟨t', n, himport, hrow⟩ := @applyRangeImport_partly src start stop t sealed hsrc hmov ht rows hrows
    hnodup done e.logId
  refine ⟨t', .importRange n (src.currentRevision .commitTs), ?_, hrow⟩
  rw [applyEntry, payload_of_command he]
  cases sealed with
  | false => simp [importCommand, executeCommand, hmode, himport, Except.map]
  | true => simp [importCommand, executeCommand, hmode, himport, Except.map]

/-- **Pages are accepted** in the middle of an attempt, in any order and any number, and every row of theirs is there
afterwards. -/
lemma applyEntries_pages (hmode : cfg.mode = .commitTs) (hsrc : RowsWhole src) (hmov : Movable src start stop)
    {cmds : List Command} (hpages : ∀ cmd ∈ cmds, IsPage src start stop sealed cmd) {es : List Entry}
    (hes : es.map Entry.command = cmds.map some) (ht : Partly src start stop t) :
    ∃ t', applyEntries cfg clock t es = (t', none) ∧ Partly src start stop t' ∧
      (∀ k, t'.row k = t.row k ∨ inRange start stop k = true ∧ t'.row k = liveRow (src.row k)) ∧
      ∀ rows done, importCommand sealed start stop rows (src.currentRevision .commitTs) done ∈ cmds →
        ∀ row ∈ rows, t'.row row.1 = liveRow (src.row row.1) := by
  induction cmds generalizing es t with
  | nil =>
    obtain rfl : es = [] := by simpa using hes
    exact ⟨t, rfl, ht, fun k => .inl rfl, fun _ _ h => absurd h not_mem_nil⟩
  | cons cmd cmds ih =>
    cases es with
    | nil => cases hes
    | cons e es =>
      obtain ⟨he, htail⟩ := List.cons.inj hes
      obtain ⟨rows, done, rfl, hrows, hnodup⟩ := hpages cmd mem_cons_self
      obtain ⟨t₁, o, happly, hrow⟩ := applyEntry_page hmode hsrc hmov ht hrows hnodup (clock e.logId.index) he
      obtain ⟨t', hrun, hpartly, hkeep, hthere⟩ := ih (fun c hc => hpages c (mem_cons_of_mem _ hc)) htail
        (ht.write hrow)
      -- a row written by this page is kept by the later ones
      have hwritten : ∀ k, k ∈ rows.map Prod.fst → t'.row k = liveRow (src.row k) := by
        intro k hk
        rcases hkeep k with h | h
        · rw [h, hrow k, if_pos hk]
        · exact h.2
      refine ⟨t', by rw [applyEntries, happly]; exact hrun, hpartly, fun k => ?_, ?_⟩
      · rcases hkeep k with h | h
        · rw [h, hrow k]
          split
          · next hk =>
            obtain ⟨row, hr, rfl⟩ := List.mem_map.1 hk
            exact .inr ⟨(hrows row hr).inRange, rfl⟩
          · exact .inl rfl
        · exact .inr h
      · intro rows' done' hmem row hr
        rcases mem_cons.1 hmem with heq | hmem
        · have : rows' = rows := by
            cases sealed with
            | false => exact (Command.importRangePreserveHistory.inj heq).2.2.1
            | true => exact (Command.importRange.inj heq).2.2.1
          exact hwritten row.1 (mem_map_of_mem (this ▸ hr))
        · exact hthere rows' done' hmem row hr

/-! ### Attempts -/

lemma applyEntry_clear (hmode : cfg.mode = .commitTs) (ht : RowsWhole t) (nowMs : ℤ)
    (he : e.command = some (.clearImportRange start stop)) :
    ∃ t' o, applyEntry cfg nowMs t e = .ok (t', o) ∧
      ∀ k, t'.row k = if inRange start stop k = true then (none, none) else t.row k := by
  obtain ⟨t', n, hclear⟩ : ∃ t' n, t.clearImportedRange .commitTs start stop e.logId = .ok (t', n) := ⟨_, _, rfl⟩
  refine ⟨t', .importRangeCleared n, ?_, fun k => ?_⟩
  · rw [applyEntry, payload_of_command he]
    simp [executeCommand, hmode, hclear, Except.map]
  · rw [row_clearImportedRange hclear k]
    by_cases hk : inRange start stop k = true
    · rw [if_pos hk]
      split
      · rfl
      next hno =>
      -- without a value there is no metadata either
      have hv : t.kv.get k = none := by simpa [hk, Store.row] using hno
      have hm : t.kvMeta.get k = none := by
        cases hm : t.kvMeta.get k with
        | none => rfl
        | some m => exact absurd (ht k m hm).1 (by simp [hv])
      rw [Store.row, hv, hm]
    · rw [if_neg hk, if_neg fun h => hk h.1]

lemma carries_append {a b : List Command} (h : es.map Entry.command = (a ++ b).map some) :
    ∃ es₁ es₂, es = es₁ ++ es₂ ∧ es₁.map Entry.command = a.map some ∧ es₂.map Entry.command = b.map some := by
  rw [map_append, map_eq_append_iff] at h
  obtain ⟨es₁, es₂, rfl, h₁, h₂⟩ := h
  exact ⟨es₁, es₂, rfl, h₁, h₂⟩

lemma applyEntries_append_none {fs : List Entry} {t₁ t₂ : Store} (h : applyEntries cfg clock t es = (t₁, none))
    (h' : applyEntries cfg clock t₁ fs = (t₂, none)) : applyEntries cfg clock t (es ++ fs) = (t₂, none) := by
  rw [applyEntries_append, h]
  exact h'

lemma applyEntries_attempt (hmode : cfg.mode = .commitTs) (hsrc : RowsWhole src) (hmov : Movable src start stop)
    {cmds : List Command} (hpages : ∀ cmd ∈ cmds, IsPage src start stop sealed cmd) {es : List Entry}
    (hes : es.map Entry.command = (.clearImportRange start stop :: cmds).map some) (ht : RowsWhole t) :
    ∃ t', applyEntries cfg clock t es = (t', none) ∧ Partly src start stop t' ∧
      (∀ k, inRange start stop k = false → t'.row k = t.row k) ∧
      ∀ rows done, importCommand sealed start stop rows (src.currentRevision .commitTs) done ∈ cmds →
        ∀ row ∈ rows, t'.row row.1 = liveRow (src.row row.1) := by
  cases es with
  | nil => cases hes
  | cons e es =>
    obtain ⟨he, htail⟩ := List.cons.inj hes
    obtain ⟨t₁, o, happly, hrow⟩ := applyEntry_clear hmode ht (clock e.logId.index) he
    have hpartly : Partly src start stop t₁ := fun k hk => .inl (by rw [hrow k, if_pos hk])
    obtain ⟨t', hrun, hpartly', hkeep, hthere⟩ := @applyEntries_pages src start stop t₁ cfg clock sealed hmode
      hsrc hmov cmds hpages es htail hpartly
    refine ⟨t', by rw [applyEntries, happly]; exact hrun, hpartly', fun k hk => ?_, hthere⟩
    rcases hkeep k with h | h
    · rw [h, hrow k, if_neg (by simp [hk])]
    · rw [hk] at h
      exact absurd h.1 (by simp)

lemma isV1_of_page {cmd : Command} (h : IsPage src start stop sealed cmd) : cmd.isV1 = false := by
  obtain ⟨rows, done, rfl, -⟩ := h
  cases sealed <;> rfl

/-- Attempts that stop anywhere leave whole rows, and nothing outside the range changed. -/
lemma applyEntries_attempts (hmode : cfg.mode = .commitTs) (hsrc : RowsWhole src) (hmov : Movable src start stop)
    {pages : List Command} (hpages : ∀ cmd ∈ pages, IsPage src start stop sealed cmd) (attempts : List ℕ)
    {es : List Entry} (hes : es.map Entry.command =
      (attempts.flatMap fun n => (Command.clearImportRange start stop :: pages).take n).map some) (ht : RowsWhole t) :
    ∃ t', applyEntries cfg clock t es = (t', none) ∧ RowsWhole t' ∧
      ∀ k, inRange start stop k = false → t'.row k = t.row k := by
  induction attempts generalizing es t with
  | nil =>
    obtain rfl : es = [] := by simpa using hes
    exact ⟨t, rfl, ht, fun _ _ => rfl⟩
  | cons n attempts ih =>
    rw [flatMap_cons] at hes
    obtain ⟨es₁, es₂, rfl, h₁, h₂⟩ := carries_append hes
    obtain ⟨t₁, hrun₁, hwhole₁, hout₁⟩ : ∃ t₁, applyEntries cfg clock t es₁ = (t₁, none) ∧ RowsWhole t₁ ∧
        ∀ k, inRange start stop k = false → t₁.row k = t.row k := by
      cases n with
      | zero =>
        obtain rfl : es₁ = [] := by simpa using h₁
        exact ⟨t, rfl, ht, fun _ _ => rfl⟩
      | succ n =>
        rw [take_succ_cons] at h₁
        have htake : ∀ cmd ∈ pages.take n, IsPage src start stop sealed cmd := fun cmd hc =>
          hpages cmd (List.mem_of_mem_take hc)
        obtain ⟨t₁, hrun, -, hout, -⟩ := @applyEntries_attempt src start stop t cfg clock sealed hmode hsrc hmov
          _ htake es₁ h₁ ht
        refine ⟨t₁, hrun, ?_, hout⟩
        have hv1 : ∀ e ∈ es₁, ∀ cmd ∈ e.command, cmd.isV1 = false := by
          intro e he cmd hcmd
          have hmem : some cmd ∈ (Command.clearImportRange start stop :: pages.take n).map some := by
            rw [← h₁, ← Option.mem_def.1 hcmd]
            exact mem_map_of_mem he
          obtain ⟨c, hc, heq⟩ := List.mem_map.1 hmem
          obtain rfl := Option.some.inj heq
          rcases mem_cons.1 hc with rfl | hc
          · rfl
          · exact isV1_of_page (htake c hc)
        have := @rowsWhole_log cfg clock t es₁ hmode hv1 ht
        rwa [hrun] at this
    obtain ⟨t₂, hrun₂, hwhole₂, hout₂⟩ := ih h₂ hwhole₁
    exact ⟨t₂, applyEntries_append_none hrun₁ hrun₂, hwhole₂, fun k hk => (hout₂ k hk).trans (hout₁ k hk)⟩

end

/-! ### A range arrives as it was -/

variable {pages : List (List VersionedKv)}

lemma mem_pageCommands {sealed : Bool} {watermark : ℕ} {cmd : Command} :
    cmd ∈ pageCommands sealed start stop watermark pages →
      ∃ rows ∈ pages, ∃ done, cmd = importCommand sealed start stop rows watermark done := by
  fun_induction pageCommands sealed start stop watermark pages with
  | case1 => intro h; cases h
  | case2 rows =>
    intro h
    exact ⟨rows, mem_singleton_self rows, true, mem_singleton.1 h⟩
  | case3 rows next rest ih =>
    intro h
    rcases mem_cons.1 h with rfl | h
    · exact ⟨rows, mem_cons_self, false, rfl⟩
    · obtain ⟨rows', hmem, done, rfl⟩ := ih h
      exact ⟨rows', mem_cons_of_mem _ hmem, done, rfl⟩

lemma exists_mem_pageCommands (sealed : Bool) (start stop : Bytes) (watermark : ℕ)
    {row : VersionedKv} (h : row ∈ pages.flatten) :
    ∃ rows done, row ∈ rows ∧ importCommand sealed start stop rows watermark done ∈
      pageCommands sealed start stop watermark pages := by
  fun_induction pageCommands sealed start stop watermark pages with
  | case1 => cases h
  | case2 rows => exact ⟨rows, true, by simpa using h, mem_singleton_self _⟩
  | case3 rows next rest ih =>
    rcases mem_append.1 h with h | h
    · exact ⟨rows, false, h, mem_cons_self⟩
    · obtain ⟨rows, done, hrow, hmem⟩ := ih h
      exact ⟨rows, done, hrow, mem_cons_of_mem _ hmem⟩

/-- The pages are produced, and the receiver accepts them and holds exactly the live rows of the range, however many
attempts stopped before and however many pages of the last one came again. -/
def Arrives (cfg : Config) (clock : ℕ → ℤ) (src tgt : Store) (start stop : Bytes) (pageSize : ℕ)
    (sealPriorHistory : Bool) : Prop :=
  ∃ pages, rangeImport src start stop pageSize sealPriorHistory = .ok (.clearImportRange start stop :: pages) ∧
    ∀ (attempts repeats : List ℕ) (es : List Entry), es.map Entry.command =
        ((attempts.flatMap fun n => (Command.clearImportRange start stop :: pages).take n) ++
          .clearImportRange start stop :: ((repeats.flatMap fun n => pages.take n) ++ pages)).map some →
      ∃ t, applyEntries cfg clock tgt es = (t, none) ∧
        ∀ k, t.row k = if inRange start stop k = true then liveRow (src.row k) else tgt.row k

section

variable {src : Store} {start stop : Bytes} {cfg : Config} {clock : ℕ → ℤ}

lemma rangeImport_eq (hsrc : RowsWhole src) (start stop : Bytes) (pageSize : ℕ) (sealed : Bool) :
    ∃ pages, pages.flatten = (liveAfter src start stop none).map (versioned src) ∧
      rangeImport src start stop pageSize sealed =
        .ok (.clearImportRange start stop ::
          pageCommands sealed start stop (src.currentRevision .commitTs) pages) := by
  have hval : ∀ r ∈ liveAfter src start stop none, (src.kv.get r.1).isSome = true := fun r hr =>
    (hsrc r.1 r.2 (mem_rows.1 (List.mem_filter.1 hr).1)).1
  have hfuel : (liveAfter src start stop none).length < src.kvMeta.rows.length + 1 :=
    Nat.lt_succ_of_le (length_filter_le _ _)
  set expected : Option ℕ := if sealed = false ∧ 0 < src.currentRevision .commitTs then
    some (src.currentRevision .commitTs) else none with hexpected
  have hexp : ∀ e ∈ expected, e = src.currentRevision .commitTs := by
    intro e he
    rw [hexpected] at he
    split at he
    · exact (Option.some.inj he).symm
    · cases he
  obtain ⟨pages, -, hflat, hloop⟩ := @importLoop_spec src start stop pageSize hval sealed _ none expected hfuel
    (fun a ha => nomatch ha) hexp
  refine ⟨pages, hflat, ?_⟩
  rw [rangeImport, importPages, hloop]

lemma nodup_page (hflat : pages.flatten = (liveAfter src start stop none).map (versioned src))
    (hrows : rows ∈ pages) : (rows.map Prod.fst).Nodup := by
  have hsub : (rows.map Prod.fst).Sublist (pages.flatten.map Prod.fst) :=
    (sublist_flatten_of_mem hrows).map _
  refine List.Nodup.sublist hsub ?_
  rw [hflat, map_map]
  exact List.Pairwise.map _ (fun _ _ h => h.ne) (liveAfter_sorted src start stop none)

lemma liveRow_cases (hsrc : RowsWhole src) {k : Bytes} (hk : inRange start stop k = true) :
    liveRow (src.row k) = (none, none) ∨ ∃ row, IsLive src start stop row ∧ row.1 = k := by
  cases hm : src.kvMeta.get k with
  | none => simp [liveRow, Store.row, hm]
  | some m =>
    cases hd : m.deleted with
    | true => simp [liveRow, Store.row, hm, hd]
    | false =>
      obtain ⟨v, hv⟩ := Option.isSome_iff_exists.1 (hsrc k m hm).1
      exact .inr ⟨(k, v, m), ⟨hk, hd, by simp [Store.row, hv, hm]⟩, rfl⟩

lemma arrives_of_movable (hmode : cfg.mode = .commitTs) (hsrc : RowsWhole src) {tgt : Store} (htgt : RowsWhole tgt)
    (pageSize : ℕ) (sealPriorHistory : Bool) (hmov : Movable src start stop) :
    Arrives cfg clock src tgt start stop pageSize sealPriorHistory := by
  obtain ⟨pages, hflat, himport⟩ := rangeImport_eq hsrc start stop pageSize sealPriorHistory
  refine ⟨_, himport, fun attempts repeats es hes => ?_⟩
  have hpages : ∀ cmd ∈ pageCommands sealPriorHistory start stop (src.currentRevision .commitTs) pages,
      IsPage src start stop sealPriorHistory cmd := by
    intro cmd hcmd
    obtain ⟨rows, hrows, done, rfl⟩ := mem_pageCommands hcmd
    refine ⟨rows, done, rfl, fun row hr => (mem_liveRows hsrc).1 ?_, nodup_page hflat hrows⟩
    rw [← hflat]
    exact mem_flatten.2 ⟨rows, hrows, hr⟩
  set cmds := pageCommands sealPriorHistory start stop (src.currentRevision .commitTs) pages
  obtain ⟨es₁, es₂, rfl, h₁, h₂⟩ := carries_append hes
  obtain ⟨t₁, hrun₁, hwhole, hout₁⟩ := @applyEntries_attempts src start stop tgt cfg clock sealPriorHistory hmode hsrc
    hmov cmds hpages attempts es₁ h₁ htgt
  have hlast : ∀ cmd ∈ (repeats.flatMap fun n => cmds.take n) ++ cmds, IsPage src start stop sealPriorHistory cmd := by
    intro cmd hcmd
    rcases mem_append.1 hcmd with hcmd | hcmd
    · obtain ⟨n, -, hcmd⟩ := mem_flatMap.1 hcmd
      exact hpages cmd (List.mem_of_mem_take hcmd)
    · exact hpages cmd hcmd
  obtain ⟨t₂, hrun₂, hpartly, hout₂, hthere⟩ := @applyEntries_attempt src start stop t₁ cfg clock sealPriorHistory hmode
    hsrc hmov _ hlast es₂ h₂ hwhole
  refine ⟨t₂, applyEntries_append_none hrun₁ hrun₂, fun k => ?_⟩
  by_cases hk : inRange start stop k = true
  · rw [if_pos hk]
    rcases liveRow_cases hsrc hk with hnone | ⟨row, hlive, rfl⟩
    · rcases hpartly k hk with h | h
      · rw [h, hnone]
      · exact h
    · -- the row is on one of the pages
      obtain ⟨rows, done, hr, hdone⟩ := exists_mem_pageCommands sealPriorHistory start stop
        (src.currentRevision .commitTs) (hflat ▸ (mem_liveRows hsrc).2 hlive)
      exact hthere rows done (mem_append_right _ hdone) row hr
  · have hk' : inRange start stop k = false := by simpa using hk
    rw [if_neg hk, hout₂ k hk', hout₁ k hk']

lemma exists_applyEntry {s t : Store} (h : applyEntries cfg clock s es = (t, none)) :
    ∀ e ∈ es, ∃ s₁ s₂ o, applyEntry cfg (clock e.logId.index) s₁ e = .ok (s₂, o) := by
  induction es generalizing s with
  | nil => intro e he; cases he
  | cons e es ih =>
    unfold applyEntries at h
    split at h
    · cases h
    next s' o hstep =>
    intro e' he'
    rcases mem_cons.1 he' with rfl | he'
    · exact ⟨s, s', o, hstep⟩
    · exact ih h e' he'

lemma movable_of_arrives (hsrc : RowsWhole src) {tgt : Store} {pageSize : ℕ} {sealed : Bool}
    (h : Arrives cfg clock src tgt start stop pageSize sealed) : Movable src start stop := by
  obtain ⟨pages, hflat, himport⟩ := rangeImport_eq hsrc start stop pageSize sealed
  obtain ⟨cmds, himport', hall⟩ := h
  obtain rfl := (List.cons.inj (Except.ok.inj (himport'.symm.trans himport))).2
  -- one attempt, with nothing repeated
  obtain ⟨t, hrun, -⟩ := hall [] []
    ((Command.clearImportRange start stop ::
      pageCommands sealed start stop (src.currentRevision .commitTs) pages).map fun cmd =>
        ⟨⟨0, 0, 0⟩, .normal cmd⟩) (by simp [Entry.command, Function.comp_def])
  refine (movable_iff hsrc).2 fun row hlive => ?_
  obtain ⟨rows, done, hr, hdone⟩ := exists_mem_pageCommands sealed start stop (src.currentRevision .commitTs)
    (hflat ▸ (mem_liveRows hsrc).2 hlive)
  obtain ⟨s₁, s₂, o, hstep⟩ := exists_applyEntry hrun _ (mem_map_of_mem (mem_cons_of_mem _ hdone))
  obtain ⟨⟨t', o'⟩, hexec, -⟩ := map_eq_ok hstep
  cases sealed
  all_goals
    obtain ⟨⟨t'', n⟩, ht, -⟩ := map_eq_ok hexec
    exact (applyRangeImport_ok ht).1 row hr

end

/-- **A range arrives as it was** exactly when none of its live rows has a reserved key or is ahead of the revision of
the source. -/
theorem rangeImport_iff {cfg : Config} {clock clock' : ℕ → ℤ} {srcLog tgtLog : List Entry}
    (hmode : cfg.mode = .commitTs) (hsrc : ∀ e ∈ srcLog, ∀ cmd ∈ e.command, cmd.isV1 = false)
    (htgt : ∀ e ∈ tgtLog, ∀ cmd ∈ e.command, cmd.isV1 = false) (start stop : Bytes) (pageSize : ℕ)
    (sealPriorHistory : Bool) :
    Arrives cfg clock' (applyEntries cfg clock Store.empty srcLog).1 (applyEntries cfg clock' Store.empty tgtLog).1
        start stop pageSize sealPriorHistory ↔
      Movable (applyEntries cfg clock Store.empty srcLog).1 start stop := by
  have hs : RowsWhole (applyEntries cfg clock Store.empty srcLog).1 := rowsWhole_log hmode hsrc rowsWhole_empty
  have ht : RowsWhole (applyEntries cfg clock' Store.empty tgtLog).1 := rowsWhole_log hmode htgt rowsWhole_empty
  exact ⟨movable_of_arrives hs, arrives_of_movable hmode hs ht pageSize sealPriorHistory⟩

def plainWrites : List Command := [.putV2 [1] [7] none 5, .putV2 [2] [8] (some 3) 6]

theorem rangeImport_iff_plain :
    Movable (storeAfter plainWrites) [] [] ∧
      Arrives plainConfig (fun _ => 0) (storeAfter plainWrites) (storeAfter [.putV2 [2] [9] none 4]) [] [] 1 true := by
  have hrows : (storeAfter plainWrites).kvMeta.rows = [([1], .newKey 5 0), ([2], .newKey 6 3)] := by decide
  have hmov : Movable (storeAfter plainWrites) [] [] := by
    intro key m hm _ _
    have hmem := mem_rows.2 hm
    rw [hrows] at hmem
    simp only [mem_cons, not_mem_nil, or_false, Prod.mk.injEq] at hmem
    rcases hmem with ⟨rfl, rfl⟩ | ⟨rfl, rfl⟩ <;> decide
  exact ⟨hmov, (rangeImport_iff rfl (by decide) (by decide) [] [] 1 true).2 hmov⟩

/-- **A page can be refused.**  A client may write a key that begins with `/_`, the export puts it on a page, and the
receiver's state machine stops on it. -/
theorem rangeImport_fails :
    ∃ commands, splitImport (storeAfter [.putV2 (ascii "/_workflow/v3/a") [7] none 5]) [] [] 16 = .ok commands ∧
      (applyEntries plainConfig (fun _ => 0) Store.empty (commandLog commands)).2 =
        some (.importReservedPrefix (ascii "/_workflow/v3/a")) :=
  ⟨_, rfl, by decide⟩

end Coord.SplitMerge
