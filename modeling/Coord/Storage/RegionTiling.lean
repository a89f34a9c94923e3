import Coord.Lib.Tiling
import Coord.Storage.RegionTable

/-!
# What a validated Region table says

The checks of `validate` amount to a row of intervals over the key space, and so every key has one Region, the one
`route` finds.  A batch that is accepted leaves a validated table; the epochs of the Regions it keeps do not fall, but
for a Region that it removes and adds again.
-/

namespace Coord.Storage

open Coord.Lib List

/-! ### Tilings -/

/-- The ends of a Region; an empty end key is no upper bound. -/
def regionEnds : Ends RegionMeta Bytes := ⟨RegionMeta.startKey, RegionMeta.endKey, []⟩

variable {m : RegionMeta}

lemma containsKey_iff {key : Bytes} : m.containsKey key = true ↔ regionEnds.Covers m key :=
  decide_eq_true_iff

/-- The Regions lie in a row over the whole key space, under ids that are unique and not `0`. -/
structure Tiles (regions : List RegionMeta) : Prop where
  chain : regionEnds.Chain [] regions
  unbounded : ∀ m, regions.getLast? = some m → m.endKey = []
  ids : (regions.map RegionMeta.regionId).Nodup
  nonzero : ∀ m ∈ regions, m.regionId ≠ 0

namespace RegionTable

lemma validateRegion_ok {seen : List RegionId} {m : RegionMeta} {next : Option RegionMeta}
    (h : validateRegion seen m next = .ok ()) :
    m.regionId ≠ 0 ∧ m.regionId ∉ seen ∧ (m.endKey = [] ∨ m.startKey < m.endKey) ∧ (next = none → m.endKey = []) ∧
      ∀ n, next = some n → m.endKey ≠ [] ∧ n.startKey = m.endKey := by
  have hrange : ¬ (m.endKey ≠ [] ∧ m.endKey ≤ m.startKey) → m.endKey = [] ∨ m.startKey < m.endKey := by
    intro hempty
    by_cases hnil : m.endKey = []
    · exact .inl hnil
    · exact .inr (not_le.1 fun hle => hempty ⟨hnil, hle⟩)
  cases next with
  | none =>
    simp only [validateRegion] at h
    split_ifs at h with hzero hseen hepoch hempty hhead hend
    exact ⟨hzero, hseen, hrange hempty, fun _ => not_not.1 hend, fun n hn => nomatch hn⟩
  | some n =>
    simp only [validateRegion] at h
    split_ifs at h with hzero hseen hepoch hempty hhead hopen hcont
    refine ⟨hzero, hseen, hrange hempty, by simp, ?_⟩
    rintro n' ⟨⟩
    exact ⟨hopen, (not_not.1 hcont).symm⟩

lemma validateRegions_ok {seen : List RegionId} {regions : List RegionMeta}
    (h : validateRegions seen regions = .ok ()) : (∀ m, regions.head? = some m → regionEnds.Chain m.startKey regions) ∧
      (∀ m, regions.getLast? = some m → m.endKey = []) ∧ (regions.map RegionMeta.regionId).Nodup ∧
      ∀ m ∈ regions, m.regionId ≠ 0 ∧ m.regionId ∉ seen := by
  induction regions generalizing seen with
  | nil => simp
  | cons m rest ih =>
    unfold validateRegions at h
    split at h
    · cases h
    next hm =>
    obtain ⟨hzero, hseen, hempty, hlast, hnext⟩ := validateRegion_ok hm
    obtain ⟨hchain, hopen, hids, hrest⟩ := ih h
    refine ⟨?_, ?_, ?_, ?_⟩
    · rintro m' ⟨⟩
      refine ⟨rfl, hempty, fun hne => ?_, ?_⟩
      · obtain ⟨n, hn⟩ := Option.ne_none_iff_exists'.1 (mt head?_eq_none_iff.1 hne)
        exact (hnext n hn).1
      · cases hrow : rest with
        | nil => trivial
        | cons n rest' =>
          have hn : rest.head? = some n := by rw [hrow]; rfl
          have hc := hchain n hn
          rw [(hnext n hn).2, hrow] at hc
          exact hc
    · intro z hz
      cases hrow : rest with
      | nil =>
        rw [hrow] at hz hlast
        obtain rfl : m = z := by simpa using hz
        exact hlast rfl
      | cons n rest' =>
        rw [hrow, getLast?_cons_cons, ← hrow] at hz
        exact hopen z hz
    · refine nodup_cons.2 ⟨fun hmem => ?_, hids⟩
      obtain ⟨r, hr, hid⟩ := mem_map.1 hmem
      exact (hrest r hr).2 (hid ▸ mem_cons_self)
    · intro r hr
      rcases mem_cons.1 hr with rfl | hr
      · exact ⟨hzero, hseen⟩
      · exact ⟨(hrest r hr).1, fun h => (hrest r hr).2 (mem_cons_of_mem _ h)⟩

theorem tiles_of_validate {t : RegionTable} (h : t.validate = .ok ()) : Tiles t.regions := by
  unfold validate at h
  split at h
  · split at h
    · cases h
    · next hnil =>
      rw [not_not.1 hnil]
      exact ⟨trivial, by simp, nodup_nil, by simp⟩
  · cases hrow : t.regions with
    | nil => exact ⟨trivial, by simp, nodup_nil, by simp⟩
    | cons first rest =>
      rw [hrow] at h
      dsimp only at h
      split at h
      · cases h
      next hhead =>
      obtain ⟨hchain, hopen, hids, hall⟩ := validateRegions_ok h
      have hstart := hchain first rfl
      rw [not_not.1 hhead] at hstart
      exact ⟨hstart, hopen, hids, fun m hm => (hall m hm).1⟩

end RegionTable

variable {regions : List RegionMeta}

lemma Tiles.eq_of_id (h : Tiles regions) {m' : RegionMeta} (hm : m ∈ regions)
    (hm' : m' ∈ regions) (hid : m.regionId = m'.regionId) : m = m' :=
  inj_on_of_nodup_map h.ids hm hm' hid

lemma Tiles.existsUnique (h : Tiles regions) (hne : regions ≠ []) (key : Bytes) :
    ∃ m ∈ regions, m.containsKey key = true ∧ ∀ m' ∈ regions, m'.containsKey key = true → m' = m := by
  obtain ⟨z, hz⟩ := Option.ne_none_iff_exists'.1 (mt getLast?_eq_none_iff.1 hne)
  obtain ⟨m, hm, hcov⟩ := h.chain.exists_covers (mem_of_getLast? hz) (.inl (h.unbounded z hz))
    (not_lt.1 (not_lt_nil key))
  exact ⟨m, hm, containsKey_iff.2 hcov, fun m' hm' hcov' => h.chain.unique hm' hm (containsKey_iff.1 hcov') hcov⟩

theorem Tiles.route {t : RegionTable} (h : Tiles t.regions) (hm : m ∈ t.regions) {key : Bytes}
    (hkey : m.containsKey key = true) : t.route key = some m := by
  have hlast : (t.regions.takeWhile fun m => decide (m.startKey ≤ key)).getLast? = some m := by
    have := h.chain.getLast?_takeWhile hm (containsKey_iff.1 hkey)
    exact this
  rw [RegionTable.route, hlast]
  exact if_pos hkey

/-! ### Epochs -/

instance : LE RegionEpoch := ⟨fun a b => a.confVer ≤ b.confVer ∧ a.version ≤ b.version⟩

instance (a b : RegionEpoch) : Decidable (a ≤ b) := inferInstanceAs (Decidable (_ ∧ _))

lemma RegionEpoch.le_refl (a : RegionEpoch) : a ≤ a := ⟨Nat.le_refl _, Nat.le_refl _⟩

lemma RegionEpoch.le_trans {a b c : RegionEpoch} (h : a ≤ b) (h' : b ≤ c) : a ≤ c :=
  ⟨Nat.le_trans h.1 h'.1, Nat.le_trans h.2 h'.2⟩

/-- The Region that a change is about. -/
def RegionChange.regionId : RegionChange → RegionId
  | .add m | .update m => m.regionId
  | .remove regionId _ => regionId

/-- The table has the Region of the change as the change leaves it. -/
def RegionChange.Said (regions : List RegionMeta) : RegionChange → Prop
  | .add m | .update m => m ∈ regions
  | .remove regionId _ => ∀ m ∈ regions, m.regionId ≠ regionId

/-- Of each Region that the batch is about, the last change to it says what the table has. -/
def Idle (regions : List RegionMeta) : List RegionChange → Prop
  | [] => True
  | c :: changes => (c.regionId ∈ changes.map RegionChange.regionId ∨ c.Said regions) ∧ Idle regions changes

/-- The Regions a batch adds under an id it removed before. -/
def reAdds (removed : List RegionId) : List RegionChange → List RegionMeta
  | [] => []
  | .remove regionId _ :: changes => reAdds (regionId :: removed) changes
  | .update _ :: changes => reAdds removed changes
  | .add m :: changes => if m.regionId ∈ removed then m :: reAdds removed changes else reAdds removed changes

variable {changes : List RegionChange}

lemma mem_reAdds_add {removed : List RegionId} {m' : RegionMeta}
    (h : m' ∈ reAdds removed changes) : m' ∈ reAdds removed (.add m :: changes) := by
  simp only [reAdds]
  split
  · exact mem_cons_of_mem _ h
  · exact h

/-- A Region that the batch removes and adds again comes back with an epoch that is not below the table's. -/
def KeepsEpochs (regions : List RegionMeta) (changes : List RegionChange) : Prop :=
  ∀ m ∈ reAdds [] changes, ∀ old ∈ regions, old.regionId = m.regionId → old.epoch ≤ m.epoch

instance (regions : List RegionMeta) (changes : List RegionChange) : Decidable (KeepsEpochs regions changes) :=
  inferInstanceAs (Decidable (∀ m ∈ reAdds [] changes, ∀ old ∈ regions, old.regionId = m.regionId →
    old.epoch ≤ m.epoch))

namespace RegionTable

lemma checkUpdateEpoch_ok {old new : RegionMeta} (h : checkUpdateEpoch old new = .ok ()) : old.epoch ≤ new.epoch := by
  unfold checkUpdateEpoch at h
  split_ifs at h with _ hregress
  exact ⟨not_lt.1 fun h => hregress (.inl h), not_lt.1 fun h => hregress (.inr h)⟩

variable {regions : List RegionMeta} {t t' : RegionTable} {changed : Bool}

/-- What an accepted change does, with the Region it found. -/
lemma applyOne_ok {regions' : List RegionMeta} {c : RegionChange} (h : applyOne regions c = .ok regions') :
    (∃ m, c = .add m ∧
      (m ∈ regions ∧ regions' = regions ∨ (∀ r ∈ regions, r.regionId ≠ m.regionId) ∧ regions' = regions ++ [m])) ∨
    (∃ m pre old post, c = .update m ∧ regions = pre ++ old :: post ∧ old.regionId = m.regionId ∧
      old.epoch ≤ m.epoch ∧ regions' = pre ++ m :: post) ∨
    (∃ epoch pre old post, c = .remove old.regionId epoch ∧ regions = pre ++ old :: post ∧ regions' = pre ++ post) := by
  -- the list around the position that the search by id found
  have hfound : ∀ {id : RegionId} {i : ℕ} {old : RegionMeta},
      regions.findIdx? (fun r => decide (r.regionId = id)) = some i → regions[i]? = some old →
        regions = regions.take i ++ old :: regions.drop (i + 1) ∧ old.regionId = id ∧ i < regions.length := by
    intro id i old hi hold
    obtain ⟨hlt, hid, -⟩ := findIdx?_eq_some_iff_getElem.1 hi
    rw [List.getElem?_eq_getElem hlt] at hold
    cases hold
    exact ⟨by simp, of_decide_eq_true hid, hlt⟩
  cases c with
  | add m =>
    refine .inl ⟨m, rfl, ?_⟩
    simp only [applyOne] at h
    split at h
    · next existing hsome =>
      split at h
      · next heq =>
        cases h
        exact .inl ⟨heq ▸ mem_of_find?_eq_some hsome, rfl⟩
      · cases h
    · next hnone =>
      split at h
      · cases h
      · cases h
        exact .inr ⟨fun r hr => by simpa using find?_eq_none.1 hnone r hr, rfl⟩
  | update m =>
    refine .inr (.inl ?_)
    simp only [applyOne] at h
    split at h
    · cases h
    next i hi =>
    split at h
    · cases h
    next old hold =>
    split at h
    · cases h
    · next hcheck =>
      cases h
      obtain ⟨hsplit, hid, hlt⟩ := hfound hi hold
      exact ⟨m, _, old, _, rfl, hsplit, hid, checkUpdateEpoch_ok hcheck, by
        rw [set_eq_take_append_cons_drop, if_pos hlt]⟩
  | remove regionId epoch =>
    refine .inr (.inr ?_)
    simp only [applyOne] at h
    split at h
    · cases h
    next i hi =>
    split at h
    · cases h
    next old hold =>
    split at h
    · cases h
    · cases h
      obtain ⟨hsplit, rfl, -⟩ := hfound hi hold
      exact ⟨epoch, _, old, _, rfl, hsplit, eraseIdx_eq_take_drop_succ _ _⟩

/-- The Regions after a change: those of another id as before, and under its own id the one it gives. -/
lemma applyOne_mem {regions' : List RegionMeta} {c : RegionChange} (hids : (regions.map RegionMeta.regionId).Nodup)
    (h : applyOne regions c = .ok regions') : (regions'.map RegionMeta.regionId).Nodup ∧ ∀ m, m ∈ regions' ↔
      if m.regionId = c.regionId then c = .add m ∨ c = .update m else m ∈ regions := by
  rcases applyOne_ok h with ⟨m₀, rfl, ⟨hm₀, rfl⟩ | ⟨hfresh, rfl⟩⟩ | ⟨m₀, pre, o, post, rfl, rfl, hid, -, rfl⟩ |
    ⟨epoch, pre, o, post, rfl, rfl, rfl⟩
  · refine ⟨hids, fun m => ?_⟩
    split_ifs with hm
    · have : m ∈ regions' ↔ m₀ = m := ⟨fun hmem => (inj_on_of_nodup_map hids hmem hm₀ hm).symm, fun h => h ▸ hm₀⟩
      simp [this]
    · rfl
  · refine ⟨by simpa [nodup_append] using ⟨hids, hfresh⟩, fun m => ?_⟩
    simp only [RegionChange.regionId]
    grind
  · simp only [map_append, map_cons, hid] at hids
    refine ⟨by simpa using hids, fun m => ?_⟩
    simp only [RegionChange.regionId]
    grind
  · simp only [map_append, map_cons] at hids
    refine ⟨?_, fun m => ?_⟩
    · rw [map_append]
      exact hids.sublist ((sublist_cons_self _ _).append_left _)
    · simp only [RegionChange.regionId]
      grind

/-- Along a batch: a Region of `before` that is still there has no lower epoch, and one that is not was removed. -/
lemma applyAll_epoch_le {before regions regions' : List RegionMeta}
    {removed : List RegionId} (h : applyAll regions changes = .ok regions')
    (hkeep : ∀ m ∈ reAdds removed changes, ∀ old ∈ before, old.regionId = m.regionId → old.epoch ≤ m.epoch)
    (hle : ∀ old ∈ before, ∀ r ∈ regions, old.regionId = r.regionId → old.epoch ≤ r.epoch)
    (hthere : ∀ old ∈ before, old.regionId ∉ removed → ∃ r ∈ regions, r.regionId = old.regionId) :
    ∀ old ∈ before, ∀ r ∈ regions', old.regionId = r.regionId → old.epoch ≤ r.epoch := by
  induction changes generalizing regions removed with
  | nil =>
    cases h
    exact hle
  | cons c changes ih =>
    unfold applyAll at h
    split at h
    · cases h
    next regions₁ hone =>
    rcases applyOne_ok hone with ⟨m, rfl, ⟨-, rfl⟩ | ⟨hfresh, rfl⟩⟩ | ⟨m, pre, o, post, rfl, rfl, hid, hep, rfl⟩ |
      ⟨epoch, pre, o, post, rfl, rfl, rfl⟩
    · -- the Region is there already
      exact ih h (fun m' hm' => hkeep m' (mem_reAdds_add hm')) hle hthere
    · -- a new Region: an id of `before` that is not in the list was removed by this batch
      have hadd : ∀ old ∈ before, old.regionId = m.regionId → old.epoch ≤ m.epoch := by
        intro old hold hid
        refine hkeep m ?_ old hold hid
        have hrem : m.regionId ∈ removed := by
          by_contra hrem
          obtain ⟨r, hr, hrid⟩ := hthere old hold (hid ▸ hrem)
          exact hfresh r hr (hrid.trans hid)
        simp [reAdds, hrem]
      have hkeep' : ∀ m' ∈ reAdds removed changes, ∀ old ∈ before, old.regionId = m'.regionId →
          old.epoch ≤ m'.epoch := fun m' hm' => hkeep m' (mem_reAdds_add hm')
      refine ih h hkeep' ?_ ?_
      · intro old hold r hr hid
        rcases mem_append_one.1 hr with hr | rfl
        · exact hle old hold r hr hid
        · exact hadd old hold hid
      · intro old hold hrem
        obtain ⟨r, hr, hrid⟩ := hthere old hold hrem
        exact ⟨r, mem_append_left _ hr, hrid⟩
    · -- an update raises the epoch and keeps the id
      simp only [mem_append, mem_cons] at hle hthere
      refine @ih _ removed h hkeep ?_ ?_
      · intro old hold r hr hrid
        simp only [mem_append, mem_cons] at hr
        rcases hr with hr | rfl | hr
        · exact hle old hold r (.inl hr) hrid
        · exact RegionEpoch.le_trans (hle old hold o (.inr (.inl rfl)) (hrid.trans hid.symm)) hep
        · exact hle old hold r (.inr (.inr hr)) hrid
      · intro old hold hrem
        simp only [mem_append, mem_cons]
        obtain ⟨r, hr | rfl | hr, hrid⟩ := hthere old hold hrem
        · exact ⟨r, .inl hr, hrid⟩
        · exact ⟨m, .inr (.inl rfl), hid.symm.trans hrid⟩
        · exact ⟨r, .inr (.inr hr), hrid⟩
    · -- a removed Region is recorded
      simp only [mem_append, mem_cons] at hle hthere
      refine @ih _ (o.regionId :: removed) h hkeep ?_ ?_
      · exact fun old hold r hr hrid => hle old hold r ((mem_append.1 hr).imp_right .inr) hrid
      · intro old hold hrem
        obtain ⟨hne, hrem⟩ : old.regionId ≠ o.regionId ∧ old.regionId ∉ removed := by simpa using hrem
        obtain ⟨r, hr | rfl | hr, hrid⟩ := hthere old hold hrem
        · exact ⟨r, mem_append_left _ hr, hrid⟩
        · exact absurd hrid.symm hne
        · exact ⟨r, mem_append_right _ hr, hrid⟩

lemma said_iff {c : RegionChange} (hids : (regions.map RegionMeta.regionId).Nodup) :
    c.Said regions ↔ ∀ m, m.regionId = c.regionId → (c = .add m ∨ c = .update m ↔ m ∈ regions) := by
  cases c with
  | remove regionId epoch => simp [RegionChange.Said, RegionChange.regionId, imp_not_comm]
  | _ m₀ =>
    simp only [RegionChange.Said, RegionChange.regionId]
    refine ⟨fun h m hm => ?_, fun h => (h m₀ rfl).1 (by simp)⟩
    have : m ∈ regions ↔ m₀ = m := ⟨fun hmem => (inj_on_of_nodup_map hids hmem h hm).symm, fun heq => heq ▸ h⟩
    simp [this]

/-- The Regions after a batch are those of `before` exactly if they were so but for the Regions it is about, and each
last change says so. -/
lemma applyAll_same_iff {before regions' : List RegionMeta} (hbefore : (before.map RegionMeta.regionId).Nodup)
    (hids : (regions.map RegionMeta.regionId).Nodup) (h : applyAll regions changes = .ok regions') :
    (regions'.map RegionMeta.regionId).Nodup ∧ ((∀ m, m ∈ regions' ↔ m ∈ before) ↔ Idle before changes ∧
      ∀ m : RegionMeta, m.regionId ∉ changes.map RegionChange.regionId → (m ∈ regions ↔ m ∈ before)) := by
  induction changes generalizing regions with
  | nil =>
    cases h
    simp [Idle, hids]
  | cons c changes ih =>
    unfold applyAll at h
    split at h
    · cases h
    next regions₁ hone =>
    obtain ⟨hids₁, hmem⟩ := applyOne_mem hids hone
    refine ⟨(ih hids₁ h).1, (ih hids₁ h).2.trans ?_⟩
    simp only [Idle, hmem, said_iff hbefore, map_cons, mem_cons, not_or]
    grind

lemma mem_sortRegions {m : RegionMeta} : m ∈ sortRegions regions ↔ m ∈ regions :=
  (perm_insertionSort _ regions).mem_iff

/-- What an accepted batch leaves: the table as it was, or the next version of it, validated but for the seed. -/
lemma apply_ok (h : t.apply changes = .ok (t', changed)) :
    changes = [] ∧ t' = t ∧ changed = false ∨ changed = true ∧ t'.version = t.version + 1 ∧
      (∃ regions, applyAll t.regions changes = .ok regions ∧ t'.regions = sortRegions regions) ∧
      (RegionTable.mk t.version t'.regions).validate = .ok () := by
  unfold apply at h
  split at h
  · next hnil =>
    cases h
    exact .inl ⟨hnil, rfl, rfl⟩
  split at h
  · cases h
  next regions hall =>
  split at h
  · cases h
  · next hvalid =>
    cases h
    exact .inr ⟨rfl, rfl, ⟨regions, hall, rfl⟩, hvalid⟩

lemma init_ok (h : t.init regions = .ok (t', changed)) :
    t' = t ∧ changed = false ∨ changed = true ∧ t.version = 0 ∧ t'.validate = .ok () := by
  unfold init at h
  split at h
  · cases h
    exact .inl ⟨rfl, rfl⟩
  · next hzero =>
    dsimp only at h
    split at h
    · cases h
    · next hvalid =>
      cases h
      exact .inr ⟨rfl, not_not.1 hzero, hvalid⟩

theorem apply_epoch_le (htiles : Tiles t.regions)
    (hkeep : KeepsEpochs t.regions changes) (h : t.apply changes = .ok (t', changed)) :
    ∀ old ∈ t.regions, ∀ new ∈ t'.regions, old.regionId = new.regionId → old.epoch ≤ new.epoch := by
  have hself : ∀ old ∈ t.regions, ∀ r ∈ t.regions, old.regionId = r.regionId → old.epoch ≤ r.epoch := by
    intro old hold r hr hid
    rw [htiles.eq_of_id hold hr hid]
    exact r.epoch.le_refl
  rcases apply_ok h with ⟨-, rfl, -⟩ | ⟨-, -, ⟨regions, hall, hsort⟩, -⟩
  · exact hself
  · intro old hold new hnew hid
    rw [hsort, mem_sortRegions] at hnew
    exact applyAll_epoch_le hall hkeep hself (fun o ho _ => ⟨o, ho, rfl⟩) old hold new hnew hid

/-- An accepted batch leaves the table as it was exactly if its last changes say what the table has. -/
lemma apply_same_iff (htiles : Tiles t.regions) (h : t.apply changes = .ok (t', true)) :
    Tiles t'.regions ∧ (t'.regions = t.regions ↔ Idle t.regions changes) := by
  rcases apply_ok h with ⟨-, -, hfalse⟩ | ⟨-, -, ⟨regions, hall, hsort⟩, hvalid⟩
  · cases hfalse
  have htiles' : Tiles t'.regions := tiles_of_validate (t := ⟨t.version, t'.regions⟩) hvalid
  obtain ⟨-, hsame⟩ := applyAll_same_iff htiles.ids htiles.ids hall
  simp only [← @mem_sortRegions regions, ← hsort, implies_true, and_true] at hsame
  refine ⟨htiles', fun heq => hsame.1 fun m => by rw [heq], fun hidle => ?_⟩
  -- two rows of the same Regions, both in the order of the keys
  have hperm : t'.regions.Perm t.regions :=
    (perm_ext_iff_of_nodup htiles'.ids.of_map htiles.ids.of_map).2 (hsame.2 hidle)
  refine hperm.eq_of_pairwise (fun a b ha hb hab hba => ?_) htiles'.chain.pairwise htiles.chain.pairwise
  have hlt := (htiles'.chain.covers_lo a ha).2.resolve_left hab.1
  exact absurd (hlt.trans_le (hab.2.trans (htiles.chain.covers_lo b hb |>.2.resolve_left hba.1).le)) (not_lt.2 hba.2)

/-! ### The version -/

inductive Call where
  | init (regions : List RegionMeta)
  | apply (changes : List RegionChange)

/-- The table after a call; a refused one leaves it as it is. -/
def after (t : RegionTable) : Call → RegionTable
  | .init regions => ((t.init regions).map Prod.fst).toOption.getD t
  | .apply changes => ((t.apply changes).map Prod.fst).toOption.getD t

def run (t : RegionTable) (calls : List Call) : RegionTable := calls.foldl after t

/-- The Regions lie in a row; a table that is not seeded has none. -/
def Seeded (t : RegionTable) : Prop := Tiles t.regions ∧ (t.version = 0 → t.regions = [])

lemma after_cases (hseed : t.Seeded) (c : Call) :
    t.after c = t ∨ (t.after c).version = t.version + 1 ∧ Tiles (t.after c).regions ∧
      ((t.after c).regions ≠ t.regions ∨ ∃ changes, c = .apply changes ∧ t.apply changes = .ok (t.after c, true)) := by
  cases c with
  | init regions =>
    simp only [after, init]
    split
    · exact .inl rfl
    next hzero =>
    cases hvalid : (RegionTable.mk 1 (sortRegions regions)).validate with
    | error e => exact .inl rfl
    | ok u =>
      have hne : sortRegions regions ≠ [] := by
        intro hnil
        simp [validate, hnil] at hvalid
      rw [hseed.2 (not_not.1 hzero), not_not.1 hzero]
      exact .inr ⟨rfl, tiles_of_validate hvalid, .inl hne⟩
  | apply changes =>
    simp only [after]
    cases h : t.apply changes with
    | error e => exact .inl rfl
    | ok r =>
      obtain ⟨t', changed⟩ := r
      rcases apply_ok h with ⟨-, rfl, -⟩ | ⟨rfl, hversion, -⟩
      · exact .inl rfl
      · exact .inr ⟨hversion, (apply_same_iff hseed.1 h).1, .inr ⟨changes, rfl, h⟩⟩

lemma run_version (hseed : t.Seeded) (calls : List Call) :
    (t.run calls).Seeded ∧ t.version ≤ (t.run calls).version ∧
      ((t.run calls).version = t.version → t.run calls = t) := by
  induction calls generalizing t with
  | nil => exact ⟨hseed, le_rfl, fun _ => rfl⟩
  | cons c calls ih =>
    rw [show t.run (c :: calls) = (t.after c).run calls from rfl]
    rcases after_cases hseed c with h | ⟨h, htiles, -⟩
    · rw [h]
      exact ih hseed
    · obtain ⟨hseed', hle, -⟩ := @ih (t.after c) ⟨htiles, by intro hzero; omega⟩
      exact ⟨hseed', by omega, fun heq => by omega⟩

/-- **The version counts the changes of the table**, but for an accepted batch that says nothing new of any Region; one
version is one table in any case. -/
theorem version_counts_changes (calls : List Call) (c : Call) :
    (((default.run calls).after c).version = (default.run calls).version +
        (if ((default.run calls).after c).regions = (default.run calls).regions then 0 else 1) ↔
      ∀ changes, c = .apply changes → changes ≠ [] → Idle (default.run calls).regions changes →
        ∃ e, (default.run calls).apply changes = .error e) ∧
    ∀ more, ((default.run calls).run more).version = (default.run calls).version →
      (default.run calls).run more = default.run calls := by
  have hseed := (run_version (t := default) ⟨⟨trivial, by simp [default], nodup_nil, by simp [default]⟩, fun _ => rfl⟩
    calls).1
  refine ⟨?_, fun more => (run_version hseed more).2.2⟩
  generalize default.run calls = t at hseed ⊢
  cases c with
  | init regions =>
    refine iff_of_true ?_ (by simp)
    rcases after_cases hseed (.init regions) with h | ⟨hversion, -, hne | ⟨changes, hc, -⟩⟩
    · rw [h, if_pos rfl]
      rfl
    · rw [if_neg hne, hversion]
    · cases hc
  | apply changes =>
    simp only [Call.apply.injEq, forall_eq']
    rcases h : t.apply changes with e | ⟨t', changed⟩
    · rw [show t.after (.apply changes) = t by rw [after, h]; rfl]
      simp
    rw [show t.after (.apply changes) = t' by rw [after, h]; rfl]
    rcases apply_ok h with ⟨rfl, rfl, -⟩ | ⟨rfl, hversion, -⟩
    · simp
    · have hne : changes ≠ [] := by
        rintro rfl
        cases h
      rw [← (apply_same_iff hseed.1 h).2, hversion]
      by_cases heq : t'.regions = t.regions <;> simp [heq, hne]

/-- The Region that is there is added again. -/
theorem version_raised_by_nothing :
    let t := default.run [.init [⟨1, [], [], ⟨1, 1⟩, [], 0, 0⟩]]
    let t' := t.after (.apply [.add ⟨1, [], [], ⟨1, 1⟩, [], 0, 0⟩])
    t'.regions = t.regions ∧ t'.version = t.version + 1 := by
  decide +kernel

end RegionTable

end Coord.Storage
