import Mathlib

/-!
# The Gregorian calendar

Dates by the rule that every fourth year is a leap year, but of the centuries
only every fourth. A day is a number of days since 1970-01-01; a year that begins
in March ends with the leap day.
-/

namespace Gregorian

@[ext]
structure Date where
  year : Int
  month : Int
  day : Int
  deriving DecidableEq

def isLeap (year : Int) : Prop := year % 4 = 0 ∧ (year % 100 ≠ 0 ∨ year % 400 = 0)

instance (year : Int) : Decidable (isLeap year) := inferInstanceAs (Decidable (_ ∧ _))

def daysInMonth (year month : Int) : Int :=
  if month = 2 then if isLeap year then 29 else 28
  else if month = 4 ∨ month = 6 ∨ month = 9 ∨ month = 11 then 30
  else 31

structure Date.Valid (date : Date) : Prop where
  month_pos : 1 ≤ date.month
  month_le : date.month ≤ 12
  day_pos : 1 ≤ date.day
  day_le : date.day ≤ daysInMonth date.year date.month

def Date.next (date : Date) : Date :=
  if date.day < daysInMonth date.year date.month then { date with day := date.day + 1 }
  else if date.month < 12 then ⟨date.year, date.month + 1, 1⟩
  else ⟨date.year + 1, 1, 1⟩

def Date.prev (date : Date) : Date :=
  if 1 < date.day then { date with day := date.day - 1 }
  else if 1 < date.month then ⟨date.year, date.month - 1, daysInMonth date.year (date.month - 1)⟩
  else ⟨date.year - 1, 12, 31⟩

def epoch : Date := ⟨1970, 1, 1⟩

/-- The date of a day. -/
def calendar : Int → Date
  | .ofNat n => Date.next^[n] epoch
  | .negSucc n => Date.prev^[n + 1] epoch

/-! ## Days as numbers -/

/-- The year that began in March. -/
def Date.marchYear (date : Date) : Int := if date.month ≤ 2 then date.year - 1 else date.year

/-- March is 0. -/
def Date.marchMonth (date : Date) : Int := if date.month ≤ 2 then date.month + 9 else date.month - 3

/-- Days since the first of March. -/
def Date.marchDay (date : Date) : Int := (153 * date.marchMonth + 2) / 5 + date.day - 1

/-- Days since 1 March of the year 0. -/
def Date.serial (date : Date) : Int :=
  365 * date.marchYear + date.marchYear / 4 - date.marchYear / 100 + date.marchYear / 400 + date.marchDay

variable {date : Date}

theorem daysInMonth_bounds (year month : Int) : 28 ≤ daysInMonth year month ∧ daysInMonth year month ≤ 31 := by
  unfold daysInMonth
  split_ifs <;> omega

theorem valid_next (h : date.Valid) : date.next.Valid := by
  obtain ⟨h₁, h₂, h₃, h₄⟩ := h
  unfold Date.next
  split_ifs with hday hmonth
  · exact ⟨h₁, h₂, by dsimp only; omega, by dsimp only; omega⟩
  · have := daysInMonth_bounds date.year (date.month + 1)
    exact ⟨by dsimp only; omega, by dsimp only; omega, Int.le_refl 1, by dsimp only; omega⟩
  · have := daysInMonth_bounds (date.year + 1) 1
    exact ⟨Int.le_refl 1, by dsimp only; omega, Int.le_refl 1, by dsimp only; omega⟩

theorem valid_prev (h : date.Valid) : date.prev.Valid := by
  obtain ⟨h₁, h₂, h₃, h₄⟩ := h
  unfold Date.prev
  split_ifs with hday hmonth
  · exact ⟨h₁, h₂, by dsimp only; omega, by dsimp only; omega⟩
  · have := daysInMonth_bounds date.year (date.month - 1)
    exact ⟨by dsimp only; omega, by dsimp only; omega, by dsimp only; omega, Int.le_refl _⟩
  · exact ⟨by dsimp only; omega, Int.le_refl 12, by dsimp only; omega, Int.le_refl 31⟩

theorem serial_next (h : date.Valid) : date.next.serial = date.serial + 1 := by
  obtain ⟨year, month, day⟩ := date
  obtain ⟨h₁, h₂, h₃, h₄⟩ := h
  dsimp only at h₁ h₂ h₃ h₄
  unfold Date.next
  dsimp only
  split_ifs with hday hmonth
  · unfold Date.serial Date.marchDay Date.marchYear Date.marchMonth
    dsimp only
    omega
  · have hlast : day = daysInMonth year month := by omega
    rw [hlast]
    unfold Date.serial Date.marchDay Date.marchYear Date.marchMonth daysInMonth isLeap
    dsimp only
    interval_cases month <;> simp <;> omega
  · obtain rfl : month = 12 := by omega
    have hlast : day = 31 := by
      have : daysInMonth year 12 = 31 := by rfl
      omega
    rw [hlast]
    unfold Date.serial Date.marchDay Date.marchYear Date.marchMonth
    dsimp only
    omega

theorem serial_prev (h : date.Valid) : date.prev.serial = date.serial - 1 := by
  obtain ⟨year, month, day⟩ := date
  obtain ⟨h₁, h₂, h₃, h₄⟩ := h
  dsimp only at h₁ h₂ h₃ h₄
  unfold Date.prev
  dsimp only
  split_ifs with hday hmonth
  · unfold Date.serial Date.marchDay Date.marchYear Date.marchMonth
    dsimp only
    omega
  · obtain rfl : day = 1 := by omega
    unfold Date.serial Date.marchDay Date.marchYear Date.marchMonth daysInMonth isLeap
    dsimp only
    interval_cases month <;> simp <;> omega
  · obtain rfl : month = 1 := by omega
    obtain rfl : day = 1 := by omega
    unfold Date.serial Date.marchDay Date.marchYear Date.marchMonth
    dsimp only
    omega

/-- The day of 1970-01-01, counted from 1 March of the year 0. -/
theorem serial_epoch : epoch.serial = 719468 := by decide

theorem calendar_serial (d : Int) : (calendar d).Valid ∧ (calendar d).serial = d + 719468 := by
  have hepoch : epoch.Valid := ⟨by decide, by decide, by decide, by decide⟩
  have hnext : ∀ n : Nat, (Date.next^[n] epoch).Valid ∧ (Date.next^[n] epoch).serial = n + 719468 := by
    intro n
    induction n with
    | zero => exact ⟨hepoch, by rw [Function.iterate_zero_apply, serial_epoch]; rfl⟩
    | succ n ih =>
      rw [Function.iterate_succ_apply', serial_next ih.1, ih.2]
      exact ⟨valid_next ih.1, by omega⟩
  have hprev : ∀ n : Nat, (Date.prev^[n] epoch).Valid ∧ (Date.prev^[n] epoch).serial = 719468 - n := by
    intro n
    induction n with
    | zero => exact ⟨hepoch, by rw [Function.iterate_zero_apply, serial_epoch]; rfl⟩
    | succ n ih =>
      rw [Function.iterate_succ_apply', serial_prev ih.1, ih.2]
      exact ⟨valid_prev ih.1, by omega⟩
  cases d with
  | ofNat n => exact hnext n
  | negSucc n =>
    obtain ⟨hvalid, hserial⟩ := hprev (n + 1)
    exact ⟨hvalid, by rw [calendar, hserial]; omega⟩

/-! ## Back from the numbers -/

/-- The year of a day in its era of 400 years. A century starts again every 36524
days, and four years every 1461; the last day of the era counts for neither. -/
theorem year_of_day {doe yoe doy : Int} (hyoe : 0 ≤ yoe ∧ yoe < 400) (hdoy : 0 ≤ doy ∧ doy ≤ 365) (hleap : doy = 365 → isLeap (yoe + 1))
    (hdoe : doe = 365 * yoe + yoe / 4 - yoe / 100 + doy) :
    (0 ≤ doe ∧ doe < 146097) ∧ (doe - doe / 1460 + doe / 36524 - doe / 146096) / 365 = yoe := by
  unfold isLeap at hleap
  obtain ⟨century, four, r, hyear, hcentury, hfour, hr, hc⟩ : ∃ century four r, yoe = 100 * century + (4 * four + r) ∧
      (0 ≤ century ∧ century < 4) ∧ (0 ≤ four ∧ four < 25) ∧ (0 ≤ r ∧ r < 4) ∧ yoe / 4 - yoe / 100 = 24 * century + four :=
    ⟨yoe / 100, yoe % 100 / 4, yoe % 100 % 4, by omega, by omega, by omega, by omega, by omega⟩
  have hleap' : doy = 365 → r = 3 ∧ (four < 24 ∨ century = 3) := by
    intro h
    obtain ⟨h₁, h₂⟩ := hleap h
    omega
  have hdays : doe = 36524 * century + (1461 * four + 365 * r + doy) := by omega
  clear hleap hdoe hyoe
  have hfirst : doe / 36524 - doe / 146096 = century := by
    by_cases hend : 1461 * four + 365 * r + doy = 36524
    · obtain rfl : doe = 146096 := by omega
      omega
    · have hlt : 1461 * four + 365 * r + doy < 36524 := by omega
      have hcenturies : doe / 36524 = century := by omega
      have hera : doe / 146096 = 0 := by omega
      omega
  have hlate : (24 * century + 365 * r + four + doy) / 1460 = 0 ∧ doy < 365 ∨ (24 * century + 365 * r + four + doy) / 1460 = 1 ∧ 0 < doy := by
    rcases Int.lt_or_le (24 * century + 365 * r + four + doy) 1460 with hlt | hle
    · exact .inl ⟨by omega, by omega⟩
    · exact .inr ⟨by omega, by omega⟩
  have hfours : doe / 1460 = 25 * century + four + (24 * century + 365 * r + four + doy) / 1460 := by
    have hsplit : doe = 1460 * (25 * century + four) + (24 * century + 365 * r + four + doy) := by omega
    rw [hsplit, Int.add_comm, Int.add_mul_ediv_left _ _ (by decide), Int.add_comm]
  refine ⟨by omega, ?_⟩
  rw [hfours, Int.add_sub_assoc, hfirst]
  clear hfours hfirst
  generalize (24 * century + 365 * r + four + doy) / 1460 = q at hlate
  omega

/-- What the first of March makes of a date: the month lengths repeat 31, 30, 31,
30, 31 from there, so 153 days are five months. -/
theorem march_fields (h : date.Valid) : (0 ≤ date.marchDay ∧ date.marchDay ≤ 365) ∧
    (date.marchDay = 365 → isLeap (date.marchYear + 1)) ∧ (0 ≤ date.marchMonth ∧ date.marchMonth ≤ 11) ∧
    (5 * date.marchDay + 2) / 153 = date.marchMonth := by
  obtain ⟨year, month, day⟩ := date
  obtain ⟨h₁, h₂, h₃, h₄⟩ := h
  dsimp only at h₁ h₂ h₃ h₄
  have hleap : month = 2 → day = 29 → isLeap year := by
    rintro rfl rfl
    by_contra hleap
    rw [daysInMonth, if_pos rfl, if_neg hleap] at h₄
    omega
  have hday : day ≤ if month = 2 then 29 else if month = 4 ∨ month = 6 ∨ month = 9 ∨ month = 11 then 30 else 31 := by
    unfold daysInMonth at h₄
    split_ifs at h₄ ⊢ <;> omega
  clear h₄
  unfold Date.marchDay Date.marchYear Date.marchMonth
  dsimp only
  refine ⟨?_, fun hlast => ?_, ?_, ?_⟩
  · interval_cases month <;> simp at hday ⊢ <;> omega
  · have hfeb : month = 2 ∧ day = 29 := by
      interval_cases month <;> simp at hday hlast ⊢ <;> omega
    rw [if_pos (by omega), Int.sub_add_cancel]
    exact hleap hfeb.1 hfeb.2
  · split_ifs <;> omega
  · interval_cases month <;> simp at hday ⊢ <;> omega

/-- The date of a day from its year and its day in the year, both from March. -/
theorem eq_of_march {year month day : Int} (hmonth : month = if date.marchMonth < 10 then date.marchMonth + 3 else date.marchMonth - 9)
    (hday : day = date.marchDay - (153 * date.marchMonth + 2) / 5 + 1) (hyear : year = if month ≤ 2 then date.marchYear + 1 else date.marchYear)
    (h : date.Valid) : (⟨year, month, day⟩ : Date) = date := by
  obtain ⟨year', month', day'⟩ := date
  obtain ⟨h₁, h₂, -, -⟩ := h
  dsimp only at h₁ h₂
  unfold Date.marchDay Date.marchYear Date.marchMonth at *
  dsimp only at *
  ext <;> dsimp only <;> split_ifs at * <;> omega

end Gregorian
