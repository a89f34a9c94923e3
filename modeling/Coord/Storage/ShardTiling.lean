import Coord.Lib.Tiling
import Coord.Storage.Shards

/-!
# The shard table and its operations

Four operations with their own guards keep one invariant: the shards lie in a row over the commit timestamps, and what
lies below the reclaim watermark is sealed.  A sealed shard stays as it is, and so whatever the planner of the
reclamation proposes is accepted, at once or later.
-/

namespace Coord.Storage

open Coord.Lib List

/-- The ends of a shard; the end `0` is no bound yet. -/
def shardEnds : Ends CommitLogShardMeta ℕ := ⟨CommitLogShardMeta.startTs, CommitLogShardMeta.endTs, 0⟩

lemma covers_iff {m : CommitLogShardMeta} {ts : ℕ} : m.covers ts = true ↔ shardEnds.Covers m ts :=
  decide_eq_true_iff

/-! ### Operations -/

/-- What an operation that changes the table does to it. -/
inductive ShardChange : CommitLogShardOp → CommitLogShardTable → CommitLogShardTable → Prop
  | first {gc startTs nowMs : ℕ} (hpos : startTs ≠ 0) :
    ShardChange (.open startTs nowMs) ⟨[], gc⟩ ⟨[⟨1, startTs, 0, nowMs, 0, 0⟩], gc⟩
  | next {gc startTs nowMs : ℕ} {init : List CommitLogShardMeta} {last : CommitLogShardMeta} (hend : last.endTs ≠ 0) :
    ShardChange (.open startTs nowMs) ⟨init ++ [last], gc⟩
      ⟨init ++ [last] ++ [⟨last.shardId + 1, last.endTs, 0, nowMs, 0, 0⟩], gc⟩
  | ended {gc endTs nowMs : ℕ} {init : List CommitLogShardMeta} {last : CommitLogShardMeta} (hopen : last.endTs = 0)
      (hlt : last.startTs < endTs) :
    ShardChange (.setEnd last.shardId endTs nowMs) ⟨init ++ [last], gc⟩
      ⟨init ++ [{ last with endTs := endTs, endedAtMs := nowMs }], gc⟩
  | sealed {gc nowMs i : ℕ} {shards : List CommitLogShardMeta} {m : CommitLogShardMeta} (hm : shards[i]? = some m)
      (hend : m.endTs ≠ 0) (hseal : m.sealedAtMs = 0) :
    ShardChange (.seal m.shardId nowMs) ⟨shards, gc⟩ ⟨shards.set i { m with sealedAtMs := nowMs }, gc⟩
  | reclaimed {gc throughTs : ℕ} {shards : List CommitLogShardMeta} (hlt : gc < throughTs)
      (hend : ∃ m ∈ shards, m.endTs = throughTs)
      (hseal : ∀ m ∈ shards, m.endTs ≠ 0 → m.endTs ≤ throughTs → m.sealedAtMs ≠ 0) :
    ShardChange (.gc throughTs) ⟨shards, gc⟩ ⟨shards, throughTs⟩

lemma eq_concat_of_latest {t : CommitLogShardTable} {last : CommitLogShardMeta} (h : t.latest = some last) :
    t.shards = t.shards.dropLast ++ [last] := (dropLast_append_getLast? last h).symm

variable {changed : Bool} {op : CommitLogShardOp} {t t' : CommitLogShardTable}

theorem CommitLogShardOp.run_ok
    (h : op.run t = .ok (t', changed)) : t' = t ∧ changed = false ∨ changed = true ∧ ShardChange op t t' := by
  obtain ⟨shards, gc⟩ := t
  cases op with
  | «open» startTs nowMs =>
    simp only [run, CommitLogShardTable.open] at h
    split at h
    · next last hlast =>
      split at h
      · cases h
        exact .inl ⟨rfl, rfl⟩
      · next hend =>
        cases h
        refine .inr ⟨rfl, ?_⟩
        have hrow : shards = shards.dropLast ++ [last] := eq_concat_of_latest hlast
        rw [hrow]
        exact .next hend
    · next hnone =>
      split at h
      · cases h
      · next hpos =>
        cases h
        obtain rfl : shards = [] := getLast?_eq_none_iff.1 hnone
        exact .inr ⟨rfl, .first hpos⟩
  | setEnd shardId endTs nowMs =>
    simp only [run, CommitLogShardTable.setEnd] at h
    split at h
    · cases h
    next last hlast =>
    split_ifs at h with hid hend hle
    · cases h
      exact .inl ⟨rfl, rfl⟩
    · cases h
      obtain rfl := not_not.1 hid
      refine .inr ⟨rfl, ?_⟩
      have hrow : shards = shards.dropLast ++ [last] := eq_concat_of_latest hlast
      rw [hrow, dropLast_concat]
      exact .ended (not_not.1 hend) (not_le.1 hle)
  | «seal» shardId nowMs =>
    simp only [run, CommitLogShardTable.seal] at h
    split at h
    · cases h
    next i hi =>
    split at h
    · cases h
    next m hm =>
    obtain ⟨hlt, hid, -⟩ := findIdx?_eq_some_iff_getElem.1 hi
    rw [getElem?_eq_getElem hlt] at hm
    cases hm
    obtain rfl := of_decide_eq_true hid
    split_ifs at h with hend hseal
    · cases h
      exact .inl ⟨rfl, rfl⟩
    · cases h
      exact .inr ⟨rfl, .sealed (getElem?_eq_getElem hlt) hend (not_not.1 hseal)⟩
  | gc throughTs =>
    simp only [run, CommitLogShardTable.advanceGc] at h
    split at h
    · cases h
      exact .inl ⟨rfl, rfl⟩
    next hle =>
    split at h
    · cases h
    next hany =>
    split at h
    · cases h
    next hnone =>
    cases h
    obtain ⟨m, hm, hend⟩ := any_eq_true.1 (not_not.1 hany)
    refine .inr ⟨rfl, .reclaimed (by omega) ⟨m, hm, of_decide_eq_true hend⟩ fun m hm hne hle hseal => ?_⟩
    have hnot := find?_eq_none.1 hnone m hm
    simp [hne, hle, hseal] at hnot

/-! ### The invariant -/

/-- `boundary` is the end of a shard, and every shard that starts below it is sealed. -/
structure SealedBelow (shards : List CommitLogShardMeta) (boundary : ℕ) : Prop where
  positive : boundary ≠ 0
  ends : ∃ m ∈ shards, m.endTs = boundary
  sealed : ∀ m ∈ shards, m.startTs < boundary → m.sealedAtMs ≠ 0

/-- The shards lie in a row from `start` on under consecutive ids, only a bounded one is sealed, and every one below
the reclaim watermark is. -/
structure CommitLogShardTable.Valid (start : ℕ) (t : CommitLogShardTable) : Prop where
  positive : 0 < start
  chain : shardEnds.Chain start t.shards
  ids : ∀ i m, t.shards[i]? = some m → m.shardId = i + 1
  bounded : ∀ m ∈ t.shards, m.sealedAtMs ≠ 0 → m.endTs ≠ 0
  gc : t.gcBeforeTs ≠ 0 → SealedBelow t.shards t.gcBeforeTs

namespace ShardChange

variable {op : CommitLogShardOp} {t t' : CommitLogShardTable} {start : ℕ}

section

variable (h : ShardChange op t t')
include h

lemma sealed_mem (hv : t.Valid start) {m : CommitLogShardMeta} (hm : m ∈ t.shards)
    (hseal : m.sealedAtMs ≠ 0) : m ∈ t'.shards := by
  cases h with
  | first _ => simp at hm
  | next _ => exact mem_append_left _ hm
  | ended hopen _ =>
    rcases mem_append_one.1 hm with hm | rfl
    · exact mem_append_left _ hm
    · exact absurd hopen (hv.bounded _ hm hseal)
  | @sealed _ _ i shards z hz _ hnot =>
    obtain ⟨j, hj⟩ := mem_iff_getElem?.1 hm
    have hij : i ≠ j := by
      rintro rfl
      obtain rfl : z = m := Option.some.inj (hz.symm.trans hj)
      exact hseal hnot
    exact mem_iff_getElem?.2 ⟨j, by rw [getElem?_set_ne hij]; exact hj⟩
  | reclaimed _ _ _ => exact hm

lemma gcBeforeTs_le : t.gcBeforeTs ≤ t'.gcBeforeTs := by
  cases h with
  | reclaimed hlt _ _ => exact Nat.le_of_lt hlt
  | _ => exact Nat.le_refl _

lemma chain (hv : t.Valid start)
    (hfirst : t.shards = [] → ∀ startTs nowMs, op = .open startTs nowMs → startTs = start) :
    shardEnds.Chain start t'.shards := by
  cases h with
  | @first _ startTs nowMs _ => exact ⟨hfirst rfl startTs nowMs rfl, .inl rfl, by simp, trivial⟩
  | @next _ _ _ init last hend =>
    refine Ends.chain_concat.2 ⟨hv.chain, fun z hz => ?_, ?_, .inl rfl⟩
    · obtain rfl : last = z := by simpa using hz
      exact hend
    · simp [shardEnds]
  | ended _ hlt =>
    obtain ⟨hrow, hopen, hstart, -⟩ := Ends.chain_concat.1 hv.chain
    exact Ends.chain_concat.2 ⟨hrow, hopen, hstart, .inr hlt⟩
  | sealed hm _ _ => exact hv.chain.set hm rfl rfl
  | reclaimed _ _ _ => exact hv.chain

lemma ids (hv : t.Valid start) : ∀ i m, t'.shards[i]? = some m → m.shardId = i + 1 := by
  intro i m hi
  cases h with
  | first _ =>
    obtain ⟨rfl, rfl⟩ : i = 0 ∧ _ = m := by simpa [getElem?_singleton] using hi
    rfl
  | @next _ _ _ init last _ =>
    rcases getElem?_append_one hi with hi | ⟨rfl, rfl⟩
    · exact hv.ids i m hi
    · have hlast := hv.ids init.length last getElem?_concat_length
      simp [hlast]
  | @ended _ _ _ init last _ _ =>
    rcases getElem?_append_one hi with hi | ⟨rfl, rfl⟩
    · exact hv.ids i m (getElem?_append_some hi _)
    · exact hv.ids init.length last getElem?_concat_length
  | @sealed _ _ j shards z hz _ _ =>
    rcases getElem?_set_cases hi with ⟨rfl, rfl⟩ | ⟨-, hi⟩
    · exact hv.ids _ z hz
    · exact hv.ids i m hi
  | reclaimed _ _ _ => exact hv.ids i m hi

lemma mem {m : CommitLogShardMeta} (hm : m ∈ t'.shards) : m ∈ t.shards ∨ m.endTs = 0 ∧ m.sealedAtMs = 0 ∨
      (∃ last ∈ t.shards, last.endTs = 0 ∧ m.startTs = last.startTs ∧ m.endTs ≠ 0) ∨
      ∃ z ∈ t.shards, z.endTs ≠ 0 ∧ z.sealedAtMs = 0 ∧ m.startTs = z.startTs ∧ m.endTs = z.endTs := by
  cases h with
  | first _ =>
    obtain rfl := mem_singleton.1 hm
    exact .inr (.inl ⟨rfl, rfl⟩)
  | next _ =>
    rcases mem_append_one.1 hm with hm | rfl
    · exact .inl hm
    · exact .inr (.inl ⟨rfl, rfl⟩)
  | ended hopen hlt =>
    rcases mem_append_one.1 hm with hm | rfl
    · exact .inl (mem_append_left _ hm)
    · exact .inr (.inr (.inl ⟨_, mem_concat_self, hopen, rfl, Nat.ne_zero_of_lt hlt⟩))
  | sealed hz hend hseal =>
    rcases mem_or_eq_of_mem_set hm with hm | rfl
    · exact .inl hm
    · exact .inr (.inr (.inr ⟨_, mem_of_getElem? hz, hend, hseal, rfl, rfl⟩))
  | reclaimed _ _ _ => exact .inl hm

lemma sealedBelow (hv : t.Valid start) {start' : ℕ}
    (hrow : shardEnds.Chain start' t'.shards) {boundary : ℕ}
      (hb : SealedBelow t.shards boundary) : SealedBelow t'.shards boundary := by
  obtain ⟨hpos, ⟨z, hz, rfl⟩, hseal⟩ := hb
  -- the shard that ends at the boundary is sealed itself, and so it stays
  have hzlt : z.startTs < z.endTs := (hv.chain.covers_lo z hz).2.resolve_left hpos
  have hz' : z ∈ t'.shards := h.sealed_mem hv hz (hseal z hz hzlt)
  refine ⟨hpos, ⟨z, hz', rfl⟩, fun m hm hlt => ?_⟩
  rcases h.mem hm with hold | ⟨hopen, -⟩ | ⟨last, hlast, hopen, hst, -⟩ | ⟨y, hy, -, hnot, hst, -⟩
  · exact hseal m hold hlt
  · exact absurd hopen (hrow.hi_le hm hz' hpos hlt).1
  · rw [hst] at hlt
    exact absurd hopen (hv.chain.hi_le hlast hz hpos hlt).1
  · exact absurd hnot (hseal y hy (hst ▸ hlt))

end

end ShardChange

/-! ### Later tables -/

/-- `t'` is a later table: a shard keeps its place, its id and its start, its end once it has one, and everything once
it is sealed. -/
structure CommitLogShardTable.Later (t t' : CommitLogShardTable) : Prop where
  shard : ∀ (i : ℕ) (m : CommitLogShardMeta), t.shards[i]? = some m →
    ∃ m' : CommitLogShardMeta, t'.shards[i]? = some m' ∧ m'.shardId = m.shardId ∧
    m'.startTs = m.startTs ∧ (m.endTs ≠ 0 → m'.endTs = m.endTs) ∧ (m.sealedAtMs ≠ 0 → m' = m)
  gc : t.gcBeforeTs ≤ t'.gcBeforeTs

lemma CommitLogShardTable.Later.refl (t : CommitLogShardTable) : t.Later t :=
  ⟨fun _ m hm => ⟨m, hm, rfl, rfl, fun _ => rfl, fun _ => rfl⟩, le_rfl⟩

lemma CommitLogShardTable.Later.trans {t u w : CommitLogShardTable} (h : t.Later u) (h' : u.Later w) : t.Later w where
  shard i m hm := by
    obtain ⟨m₁, hm₁, hid₁, hlo₁, hhi₁, hseal₁⟩ := h.shard i m hm
    obtain ⟨m₂, hm₂, hid₂, hlo₂, hhi₂, hseal₂⟩ := h'.shard i m₁ hm₁
    refine ⟨m₂, hm₂, hid₂.trans hid₁, hlo₂.trans hlo₁, fun hend => ?_, fun hseal => ?_⟩
    · rw [hhi₂ (by rwa [hhi₁ hend]), hhi₁ hend]
    · rw [hseal₂ (by rwa [hseal₁ hseal]), hseal₁ hseal]
  gc := h.gc.trans h'.gc

lemma ShardChange.later {start : ℕ} (h : ShardChange op t t') (hv : t.Valid start) : t.Later t' := by
  refine ⟨fun j m hj => ?_, h.gcBeforeTs_le⟩
  have hsame : ∀ m' : CommitLogShardMeta, m' = m → m'.shardId = m.shardId ∧ m'.startTs = m.startTs ∧
      (m.endTs ≠ 0 → m'.endTs = m.endTs) ∧ (m.sealedAtMs ≠ 0 → m' = m) := by
    rintro m' rfl
    exact ⟨rfl, rfl, fun _ => rfl, fun _ => rfl⟩
  cases h with
  | first _ => simp at hj
  | next _ => exact ⟨m, getElem?_append_some hj _, hsame m rfl⟩
  | @ended _ _ _ init last hopen _ =>
    rcases getElem?_append_one hj with hj | ⟨rfl, rfl⟩
    · exact ⟨m, getElem?_append_some hj _, hsame m rfl⟩
    · refine ⟨_, getElem?_concat_length, rfl, rfl, fun hend => absurd hopen hend, fun hseal => ?_⟩
      exact absurd hopen (hv.bounded _ mem_concat_self hseal)
  | @sealed _ _ i shards z hz _ hnot =>
    rcases getElem?_set_or hz hj with ⟨rfl, rfl, hset⟩ | hset
    · exact ⟨_, hset _, rfl, rfl, fun _ => rfl, fun hseal => absurd hnot hseal⟩
    · exact ⟨m, hset _, hsame m rfl⟩
  | reclaimed _ _ _ => exact ⟨m, hj, hsame m rfl⟩

lemma ShardChange.endTs (h : ShardChange op t t') {i : ℕ}
    {m m' : CommitLogShardMeta} (hm : t.shards[i]? = some m) (hm' : t'.shards[i]? = some m') (hopen : m.endTs = 0) :
    m'.endTs = 0 ∨ ∃ shardId nowMs, op = .setEnd shardId m'.endTs nowMs := by
  have hsame : t'.shards[i]? = some m → m'.endTs = 0 := fun he => by
    obtain rfl : m = m' := Option.some.inj (he.symm.trans hm')
    exact hopen
  cases h with
  | first _ => simp at hm
  | next _ => exact .inl (hsame (getElem?_append_some hm _))
  | @ended _ _ _ init last _ _ =>
    rcases getElem?_append_one hm with hm | ⟨rfl, rfl⟩
    · exact .inl (hsame (getElem?_append_some hm _))
    · rw [getElem?_concat_length] at hm'
      cases hm'
      exact .inr ⟨_, _, rfl⟩
  | @sealed _ _ j shards z hz hend _ =>
    have hij : j ≠ i := by
      rintro rfl
      obtain rfl : z = m := Option.some.inj (hz.symm.trans hm)
      exact hend hopen
    refine .inl (hsame ?_)
    rw [getElem?_set_ne hij]
    exact hm
  | reclaimed _ _ _ => exact .inl (hsame hm)

namespace CommitLogShardTable

variable {t t' : CommitLogShardTable} {start : ℕ} {m : CommitLogShardMeta} {op : CommitLogShardOp}

lemma Later.mem (h : t.Later t') (hm : m ∈ t.shards) :
    ∃ m' ∈ t'.shards, m'.shardId = m.shardId ∧ m'.startTs = m.startTs := by
  obtain ⟨i, hi⟩ := mem_iff_getElem?.1 hm
  obtain ⟨m', hm', hid, hlo, -⟩ := h.shard i m hi
  exact ⟨m', mem_of_getElem? hm', hid, hlo⟩

lemma Valid.eq_of_shardId (hv : t.Valid start) {z : CommitLogShardMeta} (hm : m ∈ t.shards) (hz : z ∈ t.shards)
    (hid : m.shardId = z.shardId) : m = z := by
  obtain ⟨i, hi⟩ := mem_iff_getElem?.1 hm
  obtain ⟨j, hj⟩ := mem_iff_getElem?.1 hz
  obtain rfl : i = j := by
    have := hv.ids i m hi
    have := hv.ids j z hj
    omega
  exact Option.some.inj (hi.symm.trans hj)

lemma Later.startTs_eq (h : t.Later t') (hv' : t'.Valid start) {m' : CommitLogShardMeta} (hm : m ∈ t.shards)
    (hm' : m' ∈ t'.shards) (hid : m.shardId = m'.shardId) : m'.startTs = m.startTs := by
  obtain ⟨z, hz, hzid, hlo⟩ := h.mem hm
  rw [hv'.eq_of_shardId hm' hz (by omega), hlo]

lemma Valid.covering_eq (hv : t.Valid start) {ts : ℕ} :
    t.covering ts = some m ↔ m ∈ t.shards ∧ m.covers ts = true := by
  have hfound : ∀ z, t.covering ts = some z → z ∈ t.shards ∧ z.covers ts = true := fun z hz =>
    ⟨mem_of_find?_eq_some hz, (find?_eq_some_iff_append.1 hz).1⟩
  refine ⟨hfound m, ?_⟩
  rintro ⟨hm, hcov⟩
  cases hfind : t.covering ts with
  | none => exact absurd hcov (find?_eq_none.1 hfind m hm)
  | some z =>
    obtain ⟨hz, hzcov⟩ := hfound z hfind
    rw [hv.chain.unique hz hm (covers_iff.1 hzcov) (covers_iff.1 hcov)]

lemma valid_default (hpos : 0 < start) : default.Valid start :=
  ⟨hpos, trivial, by simp [default], by simp [default], fun h => absurd rfl h⟩

section

variable (hv : t.Valid start)
include hv

lemma Valid.le_boundary {boundary : ℕ} (hb : SealedBelow t.shards boundary)
    (hm : m ∈ t.shards) (hlt : m.startTs < boundary) :
    m.endTs ≠ 0 ∧ m.endTs ≤ boundary := by
  obtain ⟨hpos, ⟨z, hz, rfl⟩, -⟩ := hb
  exact hv.chain.hi_le hm hz hpos hlt

lemma Valid.covering_reclaimed {ts : ℕ} (hle : start ≤ ts) (hlt : ts < t.gcBeforeTs) :
    ∃ m, t.covering ts = some m ∧ t.isReclaimed m = true := by
  have hgc := hv.gc (Nat.ne_zero_of_lt hlt)
  obtain ⟨z, hz, hend⟩ := hgc.ends
  obtain ⟨m, hm, hcov⟩ := hv.chain.exists_covers hz (.inr (hend ▸ hlt : ts < z.endTs)) hle
  have hends := hv.le_boundary hgc hm (hcov.1.trans_lt hlt)
  exact ⟨m, hv.covering_eq.2 ⟨hm, covers_iff.2 hcov⟩, decide_eq_true hends⟩

lemma Valid.startTs_lt (hm : m ∈ t.shards) (hend : m.endTs ≠ 0) : m.startTs < m.endTs :=
    (hv.chain.covers_lo m hm).2.resolve_left hend

lemma Valid.change (h : ShardChange op t t')
    (hfirst : t.shards = [] → ∀ startTs nowMs, op = .open startTs nowMs → startTs = start) : t'.Valid start := by
  have hrow := h.chain hv hfirst
  refine ⟨hv.positive, hrow, h.ids hv, fun m hm hseal => ?_, fun hgc => ?_⟩
  · rcases h.mem hm with hold | ⟨-, hnot⟩ | ⟨-, -, -, -, hend⟩ | ⟨z, -, hend, -, -, heq⟩
    · exact hv.bounded m hold hseal
    · exact absurd hnot hseal
    · exact hend
    · exact heq ▸ hend
  · by_cases hsame : t'.gcBeforeTs = t.gcBeforeTs
    · rw [hsame] at hgc ⊢
      exact h.sealedBelow hv hrow (hv.gc hgc)
    · cases h with
      | reclaimed hlt hends hall =>
        obtain ⟨z, hz, rfl⟩ := hends
        refine ⟨hgc, ⟨z, hz, rfl⟩, fun m hm hmlt => ?_⟩
        obtain ⟨hend, hle⟩ := hv.chain.hi_le hm hz hgc hmlt
        exact hall m hm hend hle
      | _ => exact absurd rfl hsame

theorem Valid.run (h : op.run t = .ok (t', changed))
    (hfirst : t.shards = [] → ∀ startTs nowMs, op = .open startTs nowMs → startTs = start) : t'.Valid start := by
  rcases CommitLogShardOp.run_ok h with ⟨rfl, -⟩ | ⟨-, hchange⟩
  · exact hv
  · exact hv.change hchange hfirst

lemma Valid.exists_run (h : op.run t = .ok (t', changed)) : ∃ start, t'.Valid start := by
  by_cases hfirst : ∃ startTs nowMs, t.shards = [] ∧ op = .open startTs nowMs
  · obtain ⟨startTs, nowMs, hnil, rfl⟩ := hfirst
    have hpos : startTs ≠ 0 := by
      rintro rfl
      simp [CommitLogShardOp.run, CommitLogShardTable.open, latest, hnil] at h
    have hv' : t.Valid startTs :=
      ⟨Nat.pos_of_ne_zero hpos, by rw [hnil]; trivial, hv.ids, hv.bounded, hv.gc⟩
    refine ⟨startTs, hv'.run h ?_⟩
    rintro - _ _ ⟨⟩
    rfl
  · exact ⟨start, hv.run h fun hnil startTs nowMs he => absurd ⟨startTs, nowMs, hnil, he⟩ hfirst⟩

end

lemma validateShards_chain {shards : List CommitLogShardMeta} {index : ℕ} (hpos : 0 < start)
    (hrow : shardEnds.Chain start shards) (hids : ∀ i m, shards[i]? = some m → m.shardId = index + i + 1) :
    validateShards index shards = .ok () := by
  induction shards generalizing start index with
  | nil => rfl
  | cons m rest ih =>
    obtain ⟨hstart, hne, hopen, hrest⟩ := hrow
    have hid : m.shardId = index + 1 := hids 0 m rfl
    have hm : validateShard index m rest.head? = .ok () := by
      have hst : m.startTs ≠ 0 := by
        have hlo : m.startTs = start := hstart
        omega
      have hends : ¬ (m.endTs ≠ 0 ∧ m.endTs ≤ m.startTs) := by
        rintro ⟨hend, hle⟩
        exact absurd (hne.resolve_left hend) (not_lt.2 hle)
      unfold validateShard
      rw [if_neg hst, if_neg (not_not.2 hid), if_neg hends]
      cases rest with
      | nil => rfl
      | cons n rest =>
        have hend : m.endTs ≠ 0 := hopen (cons_ne_nil _ _)
        have hnext : n.startTs = m.endTs := hrest.1
        simp [hend, hnext]
    rw [validateShards, hm]
    cases rest with
    | nil => rfl
    | cons n rest =>
      have hend : m.startTs < m.endTs := hne.resolve_left (hopen (cons_ne_nil _ _))
      refine ih (Nat.zero_lt_of_lt hend) hrest fun i m' hi => ?_
      have := hids (i + 1) m' hi
      omega

lemma Valid.validate (hv : t.Valid start) : t.validate = .ok () := by
  have hrow : validateShards 0 t.shards = .ok () :=
    validateShards_chain hv.positive hv.chain fun i m hi => by simpa using hv.ids i m hi
  rw [CommitLogShardTable.validate, hrow]
  refine if_neg ?_
  rintro ⟨hgc, hany⟩
  obtain ⟨m, hm, hend⟩ := (hv.gc hgc).ends
  exact hany (any_eq_true.2 ⟨m, hm, decide_eq_true hend⟩)

end CommitLogShardTable

/-! ### Reclamation -/

section

variable {t : CommitLogShardTable} {start : ℕ} {boundary : ℕ}

/-- **A sealed boundary is accepted**, and moves the watermark up only. -/
theorem SealedBelow.advanceGc (hb : SealedBelow t.shards boundary) (hv : t.Valid start) : t.advanceGc boundary =
      .ok (if boundary ≤ t.gcBeforeTs then (t, false) else ({ t with gcBeforeTs := boundary }, true)) := by
  by_cases hle : boundary ≤ t.gcBeforeTs
  · rw [CommitLogShardTable.advanceGc, if_pos (.inr hle), if_pos hle]
  have hnot : ¬ (boundary = 0 ∨ boundary ≤ t.gcBeforeTs) := not_or.2 ⟨hb.positive, hle⟩
  have hany : t.shards.any (fun m => decide (m.endTs = boundary)) = true := by
    obtain ⟨m, hm, hend⟩ := hb.ends
    exact any_eq_true.2 ⟨m, hm, decide_eq_true hend⟩
  have hnone : t.shards.find? (fun m => decide (m.endTs ≠ 0 ∧ m.endTs ≤ boundary ∧ m.sealedAtMs = 0)) = none := by
    refine find?_eq_none.2 fun m hm hc => ?_
    obtain ⟨hend, hle, hseal⟩ := of_decide_eq_true hc
    exact hb.sealed m hm (Nat.lt_of_lt_of_le (hv.startTs_lt hm hend) hle) hseal
  rw [CommitLogShardTable.advanceGc, if_neg hnot, if_neg (not_not.2 hany), hnone, if_neg hle]

variable {watermark nowMs retentionSecs : ℕ}

/-- The boundary of the planner is the end of a due shard after shards that are reclaimed or due. -/
lemma gcBoundary_go {through : Option ℕ} {shards : List CommitLogShardMeta}
    (h : gcBoundary.go t watermark nowMs retentionSecs through shards = some boundary) :
    through = some boundary ∨ ∃ pre m post, shards = pre ++ m :: post ∧ m.endTs = boundary ∧
      t.isReclaimed m = false ∧ gcDue m watermark nowMs retentionSecs = true ∧
      ∀ x ∈ pre, t.isReclaimed x = true ∨ gcDue x watermark nowMs retentionSecs = true := by
  induction shards generalizing through with
  | nil => exact .inl h
  | cons x rest ih =>
    unfold gcBoundary.go at h
    have hcons : (t.isReclaimed x = true ∨ gcDue x watermark nowMs retentionSecs = true) →
        (∃ pre m post, rest = pre ++ m :: post ∧ m.endTs = boundary ∧ t.isReclaimed m = false ∧
          gcDue m watermark nowMs retentionSecs = true ∧
          ∀ x ∈ pre, t.isReclaimed x = true ∨ gcDue x watermark nowMs retentionSecs = true) →
        ∃ pre m post, x :: rest = pre ++ m :: post ∧ m.endTs = boundary ∧ t.isReclaimed m = false ∧
          gcDue m watermark nowMs retentionSecs = true ∧
          ∀ x ∈ pre, t.isReclaimed x = true ∨ gcDue x watermark nowMs retentionSecs = true := by
      rintro hx ⟨pre, m, post, rfl, hend, hrec, hdue, hpre⟩
      refine ⟨x :: pre, m, post, rfl, hend, hrec, hdue, fun y hy => ?_⟩
      rcases mem_cons.1 hy with rfl | hy
      · exact hx
      · exact hpre y hy
    split at h
    · next hrec => exact (ih h).imp id (hcons (.inl hrec))
    next hrec =>
    split at h
    · next hdue =>
      rcases ih h with hthrough | hrest
      · exact .inr ⟨[], x, rest, rfl, Option.some.inj hthrough, by simpa using hrec, hdue, by simp⟩
      · exact .inr (hcons (.inr hdue) hrest)
    · exact .inl h

/-- **What the planner proposes may be reclaimed**, and lies above the watermark. -/
theorem gcBoundary_sealedBelow (hv : t.Valid start) (h : gcBoundary t watermark nowMs retentionSecs = some boundary) :
    t.gcBeforeTs < boundary ∧ SealedBelow t.shards boundary := by
  rcases gcBoundary_go h with hnone | ⟨pre, m, post, hrow, rfl, hrec, hdue, hpre⟩
  · cases hnone
  obtain ⟨hend, hseal, -, -⟩ := of_decide_eq_true hdue
  have hmem : m ∈ t.shards := by simp [hrow]
  refine ⟨?_, hend, ⟨m, hmem, rfl⟩, fun x hx hlt => ?_⟩
  · have hnot := of_decide_eq_false hrec
    exact not_le.1 fun hle => hnot ⟨hend, hle⟩
  · -- a shard after `m` starts at its end or later
    have hx' : x ∈ pre ∨ x = m := by
      rw [hrow] at hx
      rcases mem_append.1 hx with hx | hx
      · exact .inl hx
      rcases mem_cons.1 hx with rfl | hpost
      · exact .inr rfl
      have hpair := hv.chain.pairwise
      rw [hrow] at hpair
      have hle := ((pairwise_cons.1 (pairwise_append.1 hpair).2.1).1 x hpost).2
      exact absurd hlt (not_lt.2 hle)
    rcases hx' with hx' | rfl
    · rcases hpre x hx' with hr | hd
      · obtain ⟨hxend, hxle⟩ := of_decide_eq_true hr
        have hgc : t.gcBeforeTs ≠ 0 := fun h0 => hxend (Nat.le_zero.1 (h0 ▸ hxle))
        exact (hv.gc hgc).sealed x hx (Nat.lt_of_lt_of_le (hv.startTs_lt hx hxend) hxle)
      · exact (of_decide_eq_true hd).2.1
    · exact hseal

end

end Coord.Storage
