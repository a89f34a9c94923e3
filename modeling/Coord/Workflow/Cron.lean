import Mathlib

/-!
# The next fire time of a cron schedule

`to_calendar` and `next_fire` of `coord-core/workflow/cron.rs`, against the proleptic Gregorian calendar.

* `toCalendar_shows`: the conversion shows the month and day, the weekday and the time of day.
* `fires_iff`: the condition of the scan is that the date and the time of day match.
* `nextFire_least`: when a window is searched for its least match.
-/

namespace Coord.Workflow.Cron

/-- What `i64` arithmetic keeps of an exact result. -/
def i64 (x : ℤ) : ℤ := (x + 2 ^ 63) % 2 ^ 64 - 2 ^ 63

lemma i64_eq {x : ℤ} (h₀ : -2 ^ 63 ≤ x) (h₁ : x < 2 ^ 63) : i64 x = x := by
  unfold i64
  omega

lemma i64_le (x : ℤ) : i64 x ≤ 2 ^ 63 - 1 := by
  unfold i64
  omega

/-- `parse_field` sorts the values and drops repeats. -/
structure CronField where
  values : List ℕ
  sorted : values.Pairwise (· < ·)

/-- `binary_search` in the sorted values. -/
def CronField.contains (f : CronField) (v : ℕ) : Bool := f.values.elem v

structure CronSchedule where
  (seconds minutes hours days months weekdays : CronField)

structure Calendar where
  year : ℤ
  (month day hour minute second weekday : ℕ)

/-- The year of the 400-year era, which starts on 1 March. -/
def yearOfEra (doe : ℤ) : ℤ := (doe - doe / 1460 + doe / 36524 - doe / 146096) / 365

/-- The month and the day of the month, from the day of the year that starts on 1 March. -/
def monthDay (doy : ℤ) : ℕ × ℕ :=
  let mp := (5 * doy + 2) / 153
  ((if mp < 10 then mp + 3 else mp - 9).toNat, (doy - (153 * mp + 2) / 5 + 1).toNat)

def toCalendar (secs : ℤ) : Calendar :=
  let days := secs / 86400
  let rem := secs % 86400
  let z := days + 719468
  let era := z / 146097
  let doe := z % 146097
  let yoe := yearOfEra doe
  let (m, d) := monthDay (doe - (365 * yoe + yoe / 4 - yoe / 100))
  ⟨yoe + era * 400, m, d, (rem / 3600).toNat, (rem % 3600 / 60).toNat, (rem % 60).toNat, ((days + 4) % 7).toNat⟩

section

variable (s : CronSchedule)

/-- The condition of the scan; Sunday is 0 or 7. -/
def fires (ts : ℤ) : Bool :=
  let c := toCalendar ts
  s.months.contains c.month && s.days.contains c.day && s.hours.contains c.hour && s.minutes.contains c.minute &&
    s.seconds.contains c.second && (s.weekdays.contains c.weekday || s.weekdays.contains 7 && c.weekday == 0)

/-- The scan; `none` when it has not returned within so many rounds. -/
def scan (limit : ℤ) : ℕ → ℤ → Option (Option ℤ)
  | 0, _ => none
  | rounds + 1, ts =>
    if ts ≤ limit then if fires s ts then some (some ts) else scan limit rounds (i64 (ts + 1)) else some none

/-- Five years of 366 days. -/
def window : ℤ := 5 * 366 * 24 * 3600

def nextFire (rounds : ℕ) (after : ℤ) : Option (Option ℤ) := scan s (i64 (after + window)) rounds (i64 (after + 1))

end

/-! ### The Gregorian calendar -/

def IsLeap (year : ℤ) : Prop := year % 4 = 0 ∧ (year % 100 ≠ 0 ∨ year % 400 = 0)

instance : DecidablePred IsLeap := fun _ => inferInstanceAs (Decidable (_ ∧ _))

def monthLength (year : ℤ) (month : ℕ) : ℕ :=
  if month = 2 then if IsLeap year then 29 else 28 else if month ∈ [4, 6, 9, 11] then 30 else 31

structure Date where
  year : ℤ
  (month day : ℕ)
  month_mem : 1 ≤ month ∧ month ≤ 12
  day_mem : 1 ≤ day ∧ day ≤ monthLength year month

/-- The days of the years from 1 to `year`. -/
def daysThrough (year : ℤ) : ℤ := 365 * year + year / 4 - year / 100 + year / 400

lemma daysThrough_succ (year : ℤ) :
    daysThrough (year + 1) = daysThrough year + if IsLeap (year + 1) then 366 else 365 := by
  unfold daysThrough IsLeap
  split_ifs <;> omega

lemma daysThrough_era (year era : ℤ) : daysThrough (year + era * 400) = daysThrough year + era * 146097 := by
  unfold daysThrough
  omega

/-- The number of a day; 0001-01-01, a Monday, is day 1. -/
def Date.number (t : Date) : ℤ := daysThrough (t.year - 1) + ∑ k ∈ Finset.Ico 1 t.month,
    (monthLength t.year k : ℤ) + t.day

lemma yearOfEra_spec (doe : ℤ) (h₀ : 0 ≤ doe) (h₁ : doe < 146097) :
    yearOfEra doe / 400 = 0 ∧ daysThrough (yearOfEra doe) ≤ doe ∧ doe < daysThrough (yearOfEra doe + 1) := by
  obtain ⟨y, hy⟩ : ∃ y, y = yearOfEra doe := ⟨_, rfl⟩
  rw [← hy]
  unfold yearOfEra at hy
  unfold daysThrough
  -- the quotients are split because the rational bounds alone leave a day open
  obtain ⟨h₂, h₃⟩ : 0 ≤ y / 100 ∧ y / 100 ≤ 3 := by omega
  obtain ⟨h₄, h₅⟩ : 0 ≤ doe / 36524 ∧ doe / 36524 ≤ 4 := by omega
  have hera : y / 400 = 0 ∧ ((y + 1) / 400 = 0 ∨ (y + 1) / 400 = 1) := by omega
  have hnext : (y + 1) / 100 = y / 100 ∨ (y + 1) / 100 = y / 100 + 1 := by omega
  have hlast : doe / 146096 = 0 ∨ doe / 146096 = 1 := by omega
  refine ⟨hera.1, ?_⟩
  interval_cases h : y / 100 <;> interval_cases h' : doe / 36524 <;> omega

/-- A day of the year from 1 March of `year`, whose January and February are those of the next year. -/
lemma exists_monthDay (year doy : ℤ) (h₀ : 0 ≤ doy) (h₁ : daysThrough year + doy < daysThrough (year + 1)) :
    ∃ t : Date, t.number = daysThrough year + doy - 305 ∧ (t.month, t.day) = monthDay doy := by
  have h := daysThrough_succ (year - 1)
  have h' := daysThrough_succ year
  rw [sub_add_cancel] at h
  dsimp only [monthDay]
  obtain ⟨mp, hmp⟩ : ∃ mp, mp = (5 * doy + 2) / 153 := ⟨_, rfl⟩
  obtain ⟨h₂, h₃⟩ : 0 ≤ mp ∧ mp < 12 := by split_ifs at h' <;> omega
  obtain ⟨d, hd⟩ : ∃ d, d = (doy - (153 * mp + 2) / 5 + 1).toNat := ⟨_, rfl⟩
  rw [← hmp, ← hd]
  have hday : 1 ≤ d ∧ d ≤ monthLength (if mp < 10 then year else year + 1)
    (if mp < 10 then mp + 3 else mp - 9).toNat := by
    interval_cases mp <;> simp [monthLength] <;> split_ifs at * <;> omega
  refine ⟨⟨_, _, d, by split_ifs <;> omega, hday⟩, ?_, rfl⟩
  interval_cases mp <;> simp [monthLength, Date.number, Finset.sum_Ico_succ_top] <;> split_ifs at * <;> omega

/-- What a calendar shows for the second `secs` from 1970-01-01 on, which is day 719163. -/
structure Calendar.Shows (c : Calendar) (secs : ℤ) : Prop where
  date : ∃ t : Date, t.number = secs / 86400 + 719163 ∧ (t.month, t.day) = (c.month, c.day) ∧ c.weekday = t.number % 7
  time : c.hour < 24 ∧ c.minute < 60 ∧ c.second < 60 ∧ secs % 86400 = 3600 * c.hour + 60 * c.minute + c.second

theorem toCalendar_shows (secs : ℤ) : (toCalendar secs).Shows secs := by
  constructor
  · obtain ⟨z, hz⟩ : ∃ z, z = secs / 86400 + 719468 := ⟨_, rfl⟩
    obtain ⟨y, hy⟩ : ∃ y, y = yearOfEra (z % 146097) := ⟨_, rfl⟩
    obtain ⟨h₀, h₁, h₂⟩ := yearOfEra_spec (z % 146097) (by omega) (by omega)
    rw [← hy] at h₀ h₁ h₂
    have hera := daysThrough_era y (z / 146097)
    have hera' := daysThrough_era (y + 1) (z / 146097)
    rw [add_right_comm] at hera'
    have hdoy : daysThrough y = 365 * y + y / 4 - y / 100 := by rw [daysThrough, h₀, add_zero]
    obtain ⟨t, hn, hmd⟩ := exists_monthDay (y + z / 146097 * 400) (z % 146097 - daysThrough y) (by omega) (by omega)
    refine ⟨t, by omega, ?_, ?_⟩
    · rw [hmd, hdoy, hy, hz]
      rfl
    · dsimp only [toCalendar]
      omega
  · dsimp only [toCalendar]
    omega

lemma Date.day_le (t : Date) {month : ℕ} (h : t.month < month) :
    ∑ k ∈ Finset.Ico 1 t.month, (monthLength t.year k : ℤ) + t.day ≤ ∑ k ∈ Finset.Ico 1 month,
      (monthLength t.year k : ℤ) := by
  have hsub : Finset.Ico 1 (t.month + 1) ⊆ Finset.Ico 1 month := Finset.Ico_subset_Ico_right h
  have hle := Finset.sum_le_sum_of_subset_of_nonneg hsub fun k _ _ => Int.natCast_nonneg (monthLength t.year k)
  rw [Finset.sum_Ico_succ_top t.month_mem.1] at hle
  have := t.day_mem.2
  omega

lemma sum_monthLength (year : ℤ) :
    ∑ k ∈ Finset.Ico 1 13, (monthLength year k : ℤ) = daysThrough year - daysThrough (year - 1) := by
  have hyear := daysThrough_succ (year - 1)
  rw [sub_add_cancel] at hyear
  rw [hyear]
  by_cases hleap : IsLeap year <;> simp [Finset.sum_Ico_succ_top, monthLength, hleap]

lemma Date.year_le (t : Date) : daysThrough (t.year - 1) < t.number ∧ t.number ≤ daysThrough t.year := by
  have hle := t.day_le (show t.month < 13 from Nat.lt_succ_of_le t.month_mem.2)
  rw [sum_monthLength] at hle
  have hsum : (0 : ℤ) ≤ ∑ k ∈ Finset.Ico 1 t.month, (monthLength t.year k : ℤ) := by positivity
  have hday := t.day_mem.1
  unfold Date.number
  omega

lemma Date.number_lt {t t' : Date} (h : t.year < t'.year ∨ t.year = t'.year ∧ t.month < t'.month) :
    t.number < t'.number := by
  rcases h with hyear | ⟨hyear, hmonth⟩
  · have hmono : daysThrough t.year ≤ daysThrough (t'.year - 1) := by
      unfold daysThrough
      omega
    exact t.year_le.2.trans_lt (hmono.trans_lt t'.year_le.1)
  · have hle := t.day_le hmonth
    have hday := t'.day_mem.1
    rw [hyear] at hle
    unfold Date.number
    rw [hyear]
    omega

/-- A day has one date. -/
lemma Date.eq_of_number {t t' : Date} (h : t.number = t'.number) : t.month = t'.month ∧ t.day = t'.day := by
  have hlt : ¬ (t.year < t'.year ∨ t.year = t'.year ∧ t.month < t'.month) := fun hc => (number_lt hc).ne h
  have hgt : ¬ (t'.year < t.year ∨ t'.year = t.year ∧ t'.month < t.month) := fun hc => (number_lt hc).ne h.symm
  have hyear : t.year = t'.year := by omega
  have hmonth : t.month = t'.month := by omega
  unfold Date.number at h
  rw [hyear, hmonth] at h
  exact ⟨hmonth, by omega⟩

/-! ### The scan -/

/-- The second is a date and a time of day that the fields have; Sunday is 0 or 7. -/
def CronSchedule.Matches (s : CronSchedule) (secs : ℤ) : Prop :=
  ∃ (t : Date) (hour minute second : ℕ), t.number = secs / 86400 + 719163 ∧ minute < 60 ∧ second < 60 ∧
    secs % 86400 = 3600 * hour + 60 * minute + second ∧ t.month ∈ s.months.values ∧ t.day ∈ s.days.values ∧
    hour ∈ s.hours.values ∧ minute ∈ s.minutes.values ∧ second ∈ s.seconds.values ∧
    ((t.number % 7).toNat ∈ s.weekdays.values ∨ 7 ∈ s.weekdays.values ∧ t.number % 7 = 0)

variable {s : CronSchedule}

lemma fires_iff {secs : ℤ} : fires s secs ↔ s.Matches secs := by
  obtain ⟨⟨t, hn, hmd, hwd⟩, htime⟩ := toCalendar_shows secs
  obtain ⟨hm, hd⟩ := Prod.mk.inj hmd
  simp only [fires, CronField.contains, Bool.and_eq_true, Bool.or_eq_true, List.elem_eq_mem,
    decide_eq_true_eq, beq_iff_eq,
    ← hm, ← hd]
  have hday : (toCalendar secs).weekday = (t.number % 7).toNat ∧
    ((toCalendar secs).weekday = 0 ↔ t.number % 7 = 0) := by
    omega
  rw [hday.2, hday.1]
  constructor
  · rintro ⟨⟨⟨⟨⟨h₁, h₂⟩, h₃⟩, h₄⟩, h₅⟩, h₆⟩
    exact ⟨t, _, _, _, hn, htime.2.1, htime.2.2.1, htime.2.2.2, h₁, h₂, h₃, h₄, h₅, h₆⟩
  · rintro ⟨t', hour, minute, second, hn', hmin, hsec, htime', h₁, h₂, h₃, h₄, h₅, h₆⟩
    obtain ⟨hmonth, hday⟩ := Date.eq_of_number (hn.trans hn'.symm)
    have hclock : (toCalendar secs).hour = hour ∧ (toCalendar secs).minute = minute ∧
      (toCalendar secs).second = second := by
      omega
    rw [hmonth, hday, hclock.1, hclock.2.1, hclock.2.2, hn, ← hn']
    exact ⟨⟨⟨⟨⟨h₁, h₂⟩, h₃⟩, h₄⟩, h₅⟩, h₆⟩

/-- The first match from `lo` to `hi`, or that there is none. -/
def IsFirst (s : CronSchedule) (lo hi : ℤ) : Option ℤ → Prop
  | some t => IsLeast {t | lo ≤ t ∧ t ≤ hi ∧ s.Matches t} t
  | none => ∀ t, lo ≤ t → t ≤ hi → ¬ s.Matches t

lemma lt_of_not_matches {lo t : ℤ} (hlo : ¬ s.Matches lo) (ht : lo ≤ t) (hf : s.Matches t) : lo + 1 ≤ t := by
  rcases eq_or_lt_of_le ht with rfl | hlt
  · exact absurd hf hlo
  · exact hlt

lemma IsFirst.step {lo hi : ℤ} {r : Option ℤ} (hlo : ¬ s.Matches lo)
    (h : IsFirst s (lo + 1) hi r) : IsFirst s lo hi r := by
  cases r with
  | none => exact fun t ht hhi hf => h t (lt_of_not_matches hlo ht hf) hhi hf
  | some t =>
    obtain ⟨⟨hge, hle, hf⟩, hmin⟩ := h
    exact ⟨⟨by omega, hle, hf⟩, fun t' ht' => hmin ⟨lt_of_not_matches hlo ht'.1 ht'.2.2, ht'.2⟩⟩

/-- The scan of the seconds up to `limit` returns the first match, if it meets one or has room for a second more. -/
lemma scan_first {limit : ℤ} (hlimit : limit ≤ 2 ^ 63 - 1) (n : ℕ) :
    ∀ ts, -2 ^ 63 ≤ ts → limit + 1 - ts = n → (limit < 2 ^ 63 - 1 ∨ ∃ t, ts ≤ t ∧ t ≤ limit ∧ s.Matches t) →
      ∃ r, scan s limit (n + 1) ts = some r ∧ IsFirst s ts limit r := by
  induction n with
  | zero =>
    intro ts _ hn _
    refine ⟨none, ?_, fun t ht hle => by omega⟩
    rw [scan, if_neg (by omega)]
  | succ n ih =>
    intro ts hts hn hroom
    rw [scan, if_pos (by omega)]
    by_cases hf : fires s ts
    · rw [if_pos hf]
      exact ⟨some ts, rfl, ⟨le_rfl, by omega, fires_iff.1 hf⟩, fun t ht => ht.1⟩
    · have hno := mt fires_iff.2 hf
      have hroom' : limit < 2 ^ 63 - 1 ∨ ∃ t, ts + 1 ≤ t ∧ t ≤ limit ∧ s.Matches t :=
        hroom.imp_right fun ⟨t, ht, hle, hm⟩ => ⟨t, lt_of_not_matches hno ht hm, hle, hm⟩
      have hnext : ts + 1 < 2 ^ 63 := by
        rcases hroom' with hlt | ⟨t, ht, hle, -⟩ <;> omega
      rw [if_neg hf, i64_eq (by omega) hnext]
      obtain ⟨r, hr, hfirst⟩ := ih (ts + 1) (by omega) (by omega) hroom'
      exact ⟨r, hr, hfirst.step hno⟩

/-- A scan up to the last second returns a match only: the next second wraps around. -/
lemma scan_last {rounds : ℕ} {r : Option ℤ} : ∀ {ts : ℤ}, ts ≤ 2 ^ 63 - 1 →
    scan s (2 ^ 63 - 1) rounds ts = some r → ∃ t, r = some t ∧ s.Matches t := by
  induction rounds with
  | zero => exact fun _ h => absurd h (by simp [scan])
  | succ rounds ih =>
    intro ts hts h
    rw [scan, if_pos hts] at h
    split_ifs at h with hf
    · cases h
      exact ⟨ts, rfl, fires_iff.1 hf⟩
    · exact ih (i64_le _) h

/-- The calendar is the Gregorian one, and the scan finds the least match of its window exactly if the window ends
before the last second or has a match. -/
theorem nextFire_least (secs : ℤ) (s : CronSchedule) (after : ℤ) (hmin : -2 ^ 63 ≤ after)
    (hmax : after + window ≤ 2 ^ 63 - 1) : (toCalendar secs).Shows secs ∧
      ((∃ rounds r, nextFire s rounds after = some r ∧ IsFirst s (after + 1) (after + window) r) ↔
        after + window < 2 ^ 63 - 1 ∨ ∃ t, after + 1 ≤ t ∧ t ≤ after + window ∧ s.Matches t) := by
  refine ⟨toCalendar_shows secs, ?_⟩
  have hw : window = 158112000 := rfl
  have hstart : ∀ rounds, nextFire s rounds after = scan s (after + window) rounds (after + 1) := by
    intro rounds
    rw [nextFire, i64_eq (by omega) (by omega), i64_eq (by omega) (by omega)]
  simp only [hstart]
  constructor
  · rintro ⟨rounds, r, hr, hfirst⟩
    by_contra! hstuck
    rw [show after + window = 2 ^ 63 - 1 by omega] at hr
    obtain ⟨t, rfl, -⟩ := scan_last (by omega) hr
    exact hstuck.2 t hfirst.1.1 hfirst.1.2.1 hfirst.1.2.2
  · intro hroom
    obtain ⟨r, hr, hfirst⟩ := scan_first hmax 158112000 (after + 1) (by omega) (by omega) hroom
    exact ⟨_, r, hr, hfirst⟩

/-- `0 0 30 2 *`, a day that does not exist. -/
def feb30 : CronSchedule :=
  ⟨⟨[0], by decide⟩, ⟨[0], by decide⟩, ⟨[0], by decide⟩, ⟨[30], by decide⟩, ⟨[2], by decide⟩, ⟨List.range 8, by decide⟩⟩

theorem nextFire_least_feb30 : (toCalendar 951782400).Shows 951782400 ∧
    ∃ rounds r, nextFire feb30 rounds 0 = some r ∧ IsFirst feb30 (0 + 1) (0 + window) r :=
  have h := nextFire_least 951782400 feb30 0 (by decide) (by decide)
  ⟨h.1, h.2.2 (.inl (by decide))⟩

lemma not_matches_feb30 (t : ℤ) : ¬ feb30.Matches t := by
  rintro ⟨d, -, -, -, -, -, -, -, hm, hd, -⟩
  have hday := d.day_mem.2
  rw [List.mem_singleton.1 hm, List.mem_singleton.1 hd, monthLength] at hday
  split_ifs at hday <;> omega

/-- The scan never leaves a window that ends with the last second and has no match. -/
theorem nextFire_stuck : i64 (2 ^ 63 - 1 - window + window) = 2 ^ 63 - 1 - window + window ∧
    (∀ t, ¬ feb30.Matches t) ∧ ∀ rounds, nextFire feb30 rounds (2 ^ 63 - 1 - window) = none := by
  refine ⟨by decide, not_matches_feb30, fun rounds => ?_⟩
  rw [Option.eq_none_iff_forall_ne_some]
  intro r hr
  obtain ⟨t, -, ht⟩ := scan_last (i64_le _) hr
  exact not_matches_feb30 t ht

end Coord.Workflow.Cron
