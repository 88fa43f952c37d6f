import Ekapkgs.Lib.Gregorian
import Ekapkgs.Lib.Joined

/-!
# Dates of days

`days_to_date` in `sbom.rs` and `chrono_format_timestamp` in `flake.rs`, which
share their formula: one in unsigned integers, one in signed ones, whose division
rounds towards zero.
-/

namespace Ekapkgs
open Gregorian

/-! ## Unsigned -/

def add64 (a b : Nat) : Option Nat := if a + b < 2 ^ 64 then some (a + b) else none

def sub64 (a b : Nat) : Option Nat := if b ≤ a then some (a - b) else none

def mul64 (a b : Nat) : Option Nat := if a * b < 2 ^ 64 then some (a * b) else none

/-- Nothing when the arithmetic leaves `u64`. -/
def daysToDate (days : Nat) : Option (Nat × Nat × Nat) := do
  let days ← add64 days 719468
  let era := days / 146097
  let doe := days % 146097
  let yoe := (← sub64 (← add64 (← sub64 doe (doe / 1460)) (doe / 36524)) (doe / 146096)) / 365
  let y ← add64 yoe (← mul64 era 400)
  let doy ← sub64 doe (← sub64 (← add64 (← mul64 365 yoe) (yoe / 4)) (yoe / 100))
  let mp := (← add64 (← mul64 5 doy) 2) / 153
  let d ← add64 (← sub64 doy ((← add64 (← mul64 153 mp) 2) / 5)) 1
  let m ← if mp < 10 then add64 mp 3 else sub64 mp 9
  let y ← if m ≤ 2 then add64 y 1 else pure y
  pure (y, m, d)

/-! ## Signed -/

/-- The part of `chrono_format_timestamp` that is about the date. -/
def civilDate (days : Int) : Date :=
  let z := days + 719468
  let era := (if z ≥ 0 then z else z - 146096).tdiv 146097
  let doe := z - era * 146097
  let yoe := (doe - doe.tdiv 1460 + doe.tdiv 36524 - doe.tdiv 146096).tdiv 365
  let y := yoe + era * 400
  let doy := doe - (365 * yoe + yoe.tdiv 4 - yoe.tdiv 100)
  let mp := (5 * doy + 2).tdiv 153
  let d := doy - (153 * mp + 2).tdiv 5 + 1
  let m := if mp < 10 then mp + 3 else mp - 9
  ⟨if m ≤ 2 then y + 1 else y, m, d⟩

/-- `{n:0width}`: zeros after the sign, up to the width. -/
def padded (width : Nat) (n : Int) : List Char :=
  let digits := Nat.toDigits 10 n.natAbs
  if n < 0 then '-' :: (List.replicate (width - 1 - digits.length) '0' ++ digits)
  else List.replicate (width - digits.length) '0' ++ digits

/-- `{y:04}-{m:02}-{d:02} {hours:02}:{mins:02}:{secs:02} UTC`. -/
def timestampText (date : Date) (hours mins secs : Int) : String :=
  String.ofList (padded 4 date.year ++ '-' :: (padded 2 date.month ++ '-' :: padded 2 date.day) ++
    ' ' :: (padded 2 hours ++ ':' :: (padded 2 mins ++ ':' :: (padded 2 secs ++ " UTC".toList))))

def chronoFormatTimestamp (ts : Int) : String :=
  let days := ts.tdiv 86400
  let rem := ts.tmod 86400
  timestampText (civilDate days) (rem.tdiv 3600) ((rem.tmod 3600).tdiv 60) (rem.tmod 60)

/-! ## The calendar -/

/-- The date and the time of day of a second. -/
def calendarText (ts : Int) : String :=
  timestampText (calendar (ts / 86400)) (ts % 86400 / 3600) (ts % 3600 / 60) (ts % 60)

theorem civilDate_of {days era doe yoe doy mp : Int}
    (hera : (if days + 719468 ≥ 0 then days + 719468 else days + 719468 - 146096).tdiv 146097 = era)
    (hdoe : days + 719468 - era * 146097 = doe) (hyoe : (doe - doe.tdiv 1460 + doe.tdiv 36524 - doe.tdiv 146096).tdiv 365 = yoe)
    (hdoy : doe - (365 * yoe + yoe.tdiv 4 - yoe.tdiv 100) = doy) (hmp : (5 * doy + 2).tdiv 153 = mp) :
    civilDate days = ⟨if (if mp < 10 then mp + 3 else mp - 9) ≤ 2 then yoe + era * 400 + 1 else yoe + era * 400,
      if mp < 10 then mp + 3 else mp - 9, doy - (153 * mp + 2).tdiv 5 + 1⟩ := by
  subst hera hdoe hyoe hdoy hmp
  rfl

/-- A valid date as the formula sees it. -/
structure EraFields (date : Date) (era doe yoe : Int) : Prop where
  year_eq : date.marchYear = 400 * era + yoe
  yoe_bounds : 0 ≤ yoe ∧ yoe < 400
  doe_eq : doe = 365 * yoe + yoe / 4 - yoe / 100 + date.marchDay
  doe_bounds : 0 ≤ doe ∧ doe < 146097
  formula : (doe - doe / 1460 + doe / 36524 - doe / 146096) / 365 = yoe
  serial_eq : date.serial = era * 146097 + doe

theorem exists_fields {date : Date} (h : date.Valid) : ∃ era doe yoe, EraFields date era doe yoe := by
  obtain ⟨hdoy, hleap, -, -⟩ := march_fields h
  obtain ⟨era, yoe, hyear, hyoe⟩ : ∃ era yoe, date.marchYear = 400 * era + yoe ∧ 0 ≤ yoe ∧ yoe < 400 :=
    ⟨date.marchYear / 400, date.marchYear % 400, by omega, by omega, by omega⟩
  have hleap' : date.marchDay = 365 → isLeap (yoe + 1) := by
    intro h
    obtain ⟨h₁, h₂⟩ := hleap h
    unfold isLeap
    omega
  obtain ⟨hbound, hformula⟩ := year_of_day hyoe hdoy hleap' rfl
  refine ⟨era, _, yoe, hyear, hyoe, rfl, hbound, hformula, ?_⟩
  have hfour : (400 * era + yoe) / 4 = 100 * era + yoe / 4 := by omega
  have hcentury : (400 * era + yoe) / 100 = 4 * era + yoe / 100 := by omega
  have hera : (400 * era + yoe) / 400 = era := by omega
  unfold Date.serial
  rw [hyear, hfour, hcentury, hera]
  omega

theorem civilDate_of_valid {date : Date} {d : Int} (hvalid : date.Valid) (hserial : date.serial = d + 719468) : civilDate d = date := by
  obtain ⟨hdoy, -, hmonth, hmp⟩ := march_fields hvalid
  obtain ⟨era, doe, yoe, hf⟩ := exists_fields hvalid
  have hz : d + 719468 = era * 146097 + doe := by rw [← hserial, hf.serial_eq]
  have hbound := hf.doe_bounds
  have hyoe := hf.yoe_bounds
  have hera : (if d + 719468 ≥ 0 then d + 719468 else d + 719468 - 146096).tdiv 146097 = era := by
    rw [hz]
    split_ifs with hsign
    · rw [Int.tdiv_eq_ediv_of_nonneg hsign]
      omega
    · have hneg : era * 146097 + doe - 146096 = -(-(era * 146097 + doe - 146096)) := by omega
      rw [hneg, Int.neg_tdiv, Int.tdiv_eq_ediv_of_nonneg (by omega)]
      omega
  have hdoe : d + 719468 - era * 146097 = doe := by omega
  have hyear : (doe - doe.tdiv 1460 + doe.tdiv 36524 - doe.tdiv 146096).tdiv 365 = yoe := by
    have hnonneg : 0 ≤ doe - doe / 1460 + doe / 36524 - doe / 146096 := by omega
    rw [Int.tdiv_eq_ediv_of_nonneg hbound.1, Int.tdiv_eq_ediv_of_nonneg hbound.1, Int.tdiv_eq_ediv_of_nonneg hbound.1,
      Int.tdiv_eq_ediv_of_nonneg hnonneg]
    exact hf.formula
  have hday : doe - (365 * yoe + yoe.tdiv 4 - yoe.tdiv 100) = date.marchDay := by
    rw [Int.tdiv_eq_ediv_of_nonneg hyoe.1, Int.tdiv_eq_ediv_of_nonneg hyoe.1, hf.doe_eq]
    omega
  have hmp' : (5 * date.marchDay + 2).tdiv 153 = date.marchMonth := by
    rw [Int.tdiv_eq_ediv_of_nonneg (by omega)]
    exact hmp
  rw [civilDate_of hera hdoe hyear hday hmp', Int.tdiv_eq_ediv_of_nonneg (by omega)]
  have hmarch : yoe + era * 400 = date.marchYear := by
    have := hf.year_eq
    omega
  rw [hmarch]
  exact eq_of_march rfl rfl rfl hvalid

theorem civilDate_eq (d : Int) : civilDate d = calendar d :=
  civilDate_of_valid (calendar_serial d).1 (calendar_serial d).2

/-- The calendar goes on from day to day, also before 1970. -/
theorem calendar_succ (d : Int) : calendar (d + 1) = (calendar d).next := by
  obtain ⟨hvalid, hserial⟩ := calendar_serial d
  rw [← civilDate_eq, civilDate_of_valid (valid_next hvalid) (by rw [serial_next hvalid, hserial]; omega)]

theorem add64_eq {a b : Nat} (h : a + b < 2 ^ 64) : add64 a b = some (a + b) := if_pos h

theorem sub64_eq {a b : Nat} (h : b ≤ a) : sub64 a b = some (a - b) := if_pos h

theorem mul64_eq {a b : Nat} (h : a * b < 2 ^ 64) : mul64 a b = some (a * b) := if_pos h

theorem daysToDate_of {days era doe yoe doy mp : Nat} (hbound : days + 719468 < 2 ^ 64) (hera : (days + 719468) / 146097 = era)
    (hdoe : (days + 719468) % 146097 = doe) (hyoe : (doe - doe / 1460 + doe / 36524 - doe / 146096) / 365 = yoe) (hlt : yoe < 400)
    (hdoy : doe = 365 * yoe + yoe / 4 - yoe / 100 + doy) (hdays : doy ≤ 365) (hmp : (5 * doy + 2) / 153 = mp) (hmp' : mp ≤ 11) :
    daysToDate days = some (if (if mp < 10 then mp + 3 else mp - 9) ≤ 2 then yoe + era * 400 + 1 else yoe + era * 400,
      if mp < 10 then mp + 3 else mp - 9, doy - (153 * mp + 2) / 5 + 1) := by
  have hz := add64_eq hbound
  have hyear₁ : sub64 doe (doe / 1460) = some (doe - doe / 1460) := sub64_eq (by omega)
  have hyear₂ : add64 (doe - doe / 1460) (doe / 36524) = some (doe - doe / 1460 + doe / 36524) := add64_eq (by omega)
  have hyear₃ : sub64 (doe - doe / 1460 + doe / 36524) (doe / 146096) = some (doe - doe / 1460 + doe / 36524 - doe / 146096) :=
    sub64_eq (by omega)
  have hyears : mul64 era 400 = some (era * 400) := mul64_eq (by omega)
  have hy : add64 yoe (era * 400) = some (yoe + era * 400) := add64_eq (by omega)
  have hday₁ : mul64 365 yoe = some (365 * yoe) := mul64_eq (by omega)
  have hday₂ : add64 (365 * yoe) (yoe / 4) = some (365 * yoe + yoe / 4) := add64_eq (by omega)
  have hday₃ : sub64 (365 * yoe + yoe / 4) (yoe / 100) = some (365 * yoe + yoe / 4 - yoe / 100) := sub64_eq (by omega)
  have hday₄ : sub64 doe (365 * yoe + yoe / 4 - yoe / 100) = some doy := by
    rw [sub64_eq (by omega)]
    exact congrArg some (by omega)
  have hmonth₁ : mul64 5 doy = some (5 * doy) := mul64_eq (by omega)
  have hmonth₂ : add64 (5 * doy) 2 = some (5 * doy + 2) := add64_eq (by omega)
  have hlast₁ : mul64 153 mp = some (153 * mp) := mul64_eq (by omega)
  have hlast₂ : add64 (153 * mp) 2 = some (153 * mp + 2) := add64_eq (by omega)
  have hlast₃ : sub64 doy ((153 * mp + 2) / 5) = some (doy - (153 * mp + 2) / 5) := sub64_eq (by omega)
  have hlast₄ : add64 (doy - (153 * mp + 2) / 5) 1 = some (doy - (153 * mp + 2) / 5 + 1) := add64_eq (by omega)
  have hnext : add64 (yoe + era * 400) 1 = some (yoe + era * 400 + 1) := add64_eq (by omega)
  subst hera hdoe hyoe hmp
  unfold daysToDate
  have bind_some : ∀ {α β : Type} {x : Option α} {f : α → Option β} {a : α} {b : β}, x = some a → f a = some b → (x >>= f) = some b :=
    fun hx hf => hx ▸ hf
  refine bind_some hz <| bind_some hyear₁ <| bind_some hyear₂ <| bind_some hyear₃ <| bind_some hyears <| bind_some hy <|
    bind_some hday₁ <| bind_some hday₂ <| bind_some hday₃ <| bind_some hday₄ <| bind_some hmonth₁ <| bind_some hmonth₂ <|
    bind_some hlast₁ <| bind_some hlast₂ <| bind_some hlast₃ <| bind_some hlast₄ ?_
  by_cases hmarch : (5 * doy + 2) / 153 < 10
  · have hm : add64 ((5 * doy + 2) / 153) 3 = some ((5 * doy + 2) / 153 + 3) := add64_eq (by omega)
    rw [if_pos hmarch, if_pos hmarch, if_neg (by omega)]
    refine bind_some hm ?_
    dsimp only
    rw [if_neg (by omega)]
    rfl
  · have hm : sub64 ((5 * doy + 2) / 153) 9 = some ((5 * doy + 2) / 153 - 9) := sub64_eq (by omega)
    rw [if_neg hmarch, if_neg hmarch, if_pos (by omega)]
    refine bind_some hm ?_
    dsimp only
    rw [if_pos (by omega)]
    exact bind_some hnext rfl

/-- The unsigned formula takes the same steps, and none of them underflows. -/
theorem daysToDate_eq {days : Nat} (h : days + 719468 < 2 ^ 64) : ∃ y m d : Nat, daysToDate days = some (y, m, d) ∧
    (⟨y, m, d⟩ : Date) = calendar days := by
  obtain ⟨hvalid, hserial⟩ := calendar_serial days
  obtain ⟨hdoy, -, hmonth, hmp⟩ := march_fields hvalid
  obtain ⟨era, doe, yoe, hyear, hyoe, hdoe, hbound, hformula, hz⟩ := exists_fields hvalid
  have hlast : (153 * (calendar days).marchMonth + 2) / 5 ≤ (calendar days).marchDay := by omega
  have heq := eq_of_march rfl rfl rfl hvalid
  generalize calendar days = date at *
  generalize date.marchDay = doy at *
  generalize date.marchMonth = mp at *
  lift yoe to Nat using hyoe.1
  lift doe to Nat using hbound.1
  lift era to Nat using (by omega)
  lift doy to Nat using hdoy.1
  lift mp to Nat using hmonth.1
  have hdays : days + 719468 = era * 146097 + doe := by omega
  have hmp' : (5 * doy + 2) / 153 = mp := by omega
  have hyoe' : (doe - doe / 1460 + doe / 36524 - doe / 146096) / 365 = yoe := by omega
  have hdoe' : doe = 365 * yoe + yoe / 4 - yoe / 100 + doy := by omega
  obtain ⟨hera, hrest⟩ := (Nat.div_mod_unique (a := days + 719468) (c := doe) (d := era) (by decide : 0 < 146097)).mpr ⟨by omega, by omega⟩
  refine ⟨_, _, _, daysToDate_of h hera hrest hyoe' (by omega) hdoe' (by omega) hmp' (by omega), ?_⟩
  clear hyoe' hdoe' hera hrest hformula
  rw [← heq, hyear]
  ext
  · dsimp only
    split_ifs <;> omega
  · dsimp only
    split_ifs <;> omega
  · dsimp only
    omega

theorem daysToDate_none {days : Nat} (h : ¬days + 719468 < 2 ^ 64) : daysToDate days = none := by
  have hz : add64 days 719468 = none := if_neg h
  unfold daysToDate
  rw [hz]
  rfl

/-! ## Times before 1970 -/

theorem mem_padded {width : Nat} {n : Int} {c : Char} (h : c ∈ padded width n) : c = '-' ∧ n < 0 ∨ c.isDigit := by
  have hdigits : ∀ k, c ∈ List.replicate k '0' ++ Nat.toDigits 10 n.natAbs → c.isDigit := by
    intro k hc
    rcases List.mem_append.mp hc with hzero | hdigit
    · rw [List.eq_of_mem_replicate hzero]
      rfl
    · exact Nat.isDigit_of_mem_toDigits (by decide) (by decide) hdigit
  unfold padded at h
  dsimp only at h
  split_ifs at h with hneg
  · rcases List.mem_cons.mp h with rfl | htail
    · exact .inl ⟨rfl, hneg⟩
    · exact .inr (hdigits _ htail)
  · exact .inr (hdigits _ h)

theorem minus_mem_padded {width : Nat} {n : Int} : '-' ∈ padded width n ↔ n < 0 := by
  refine ⟨fun h => ?_, fun h => ?_⟩
  · rcases mem_padded h with ⟨-, hneg⟩ | hdigit
    · exact hneg
    · exact absurd hdigit (by decide)
  · unfold padded
    dsimp only
    rw [if_pos h]
    exact List.mem_cons_self

theorem blank_not_mem_padded {width : Nat} {n : Int} : ' ' ∉ padded width n := by
  intro h
  rcases mem_padded h with ⟨heq, -⟩ | hdigit
  · exact absurd heq (by decide)
  · exact absurd hdigit (by decide)

/-- The time of day starts after the only blank before it, and has a minus sign if
a part of it does. -/
theorem timestampText_minus {date date' : Date} {hours mins secs hours' mins' secs' : Int}
    (h : timestampText date hours mins secs = timestampText date' hours' mins' secs') (hneg : hours < 0 ∨ mins < 0 ∨ secs < 0) :
    hours' < 0 ∨ mins' < 0 ∨ secs' < 0 := by
  have hblank (date : Date) : (padded 4 date.year ++ '-' :: (padded 2 date.month ++ '-' :: padded 2 date.day)).count ' ' = 0 := by
    rw [List.count_eq_zero]
    simp [blank_not_mem_padded]
  obtain ⟨-, htime⟩ := Joined.append_sep_inj ((hblank date).trans (hblank date').symm) (String.ofList_injective h)
  have hminus (hours mins secs : Int) : '-' ∈ padded 2 hours ++ ':' :: (padded 2 mins ++ ':' :: (padded 2 secs ++ " UTC".toList)) ↔
      hours < 0 ∨ mins < 0 ∨ secs < 0 := by
    simp [minus_mem_padded]
  exact (hminus ..).mp (htime ▸ (hminus ..).mpr hneg)

theorem chronoFormatTimestamp_iff (ts : Int) : chronoFormatTimestamp ts = calendarText ts ↔ 0 ≤ ts ∨ 86400 ∣ ts := by
  unfold chronoFormatTimestamp calendarText
  dsimp only
  rw [civilDate_eq]
  refine ⟨fun h => ?_, fun h => ?_⟩
  · by_contra hneither
    -- a negative second that does not end a day leaves a negative rest
    obtain ⟨n, rfl⟩ : ∃ n, ts = -n := ⟨-ts, by omega⟩
    have hneg : (-n).tmod 86400 = -(n % 86400) := by rw [Int.neg_tmod, Int.tmod_eq_emod_of_nonneg (by omega)]
    have hparts : -(n % 86400 / 3600) < 0 ∨ -(n % 86400 % 3600 / 60) < 0 ∨ -(n % 86400 % 60) < 0 := by omega
    have hnegative : -n % 86400 / 3600 < 0 ∨ -n % 3600 / 60 < 0 ∨ -n % 60 < 0 := by
      refine timestampText_minus h ?_
      rw [hneg, Int.neg_tdiv, Int.neg_tmod, Int.neg_tdiv, Int.neg_tmod, Int.tdiv_eq_ediv_of_nonneg (by omega),
        Int.tmod_eq_emod_of_nonneg (by omega), Int.tdiv_eq_ediv_of_nonneg (by omega), Int.tmod_eq_emod_of_nonneg (by omega)]
      exact hparts
    omega
  · rcases h with hnonneg | ⟨k, rfl⟩
    · rw [Int.tdiv_eq_ediv_of_nonneg hnonneg, Int.tmod_eq_emod_of_nonneg hnonneg, Int.tdiv_eq_ediv_of_nonneg (by omega),
        Int.tmod_eq_emod_of_nonneg (by omega), Int.tdiv_eq_ediv_of_nonneg (by omega), Int.tmod_eq_emod_of_nonneg (by omega)]
      rw [show ts % 86400 % 3600 = ts % 3600 by omega, show ts % 86400 % 60 = ts % 60 by omega]
    · rw [Int.mul_tdiv_cancel_left _ (by decide), Int.mul_ediv_cancel_left _ (by decide), Int.mul_tmod_right, Int.mul_emod_right,
        show 86400 * k % 3600 = 0 by omega, show 86400 * k % 60 = 0 by omega]
      rfl

/-- Unsigned days become the dates of the calendar whenever the arithmetic stays in
range, and a timestamp is printed rightly unless it falls inside a day before 1970. -/
theorem dates_of_days (days ts) :
    (daysToDate days = none ↔ 2 ^ 64 ≤ days + 719468) ∧
    (∀ y m d, daysToDate days = some (y, m, d) → (⟨y, m, d⟩ : Date) = calendar days) ∧
    (∀ d, calendar (d + 1) = (calendar d).next) ∧
    (chronoFormatTimestamp ts = calendarText ts ↔ 0 ≤ ts ∨ 86400 ∣ ts) := by
  refine ⟨⟨fun h => ?_, fun h => daysToDate_none (by omega)⟩, fun y m d h => ?_, calendar_succ, chronoFormatTimestamp_iff ts⟩
  · by_contra hlt
    obtain ⟨y, m, d, heq, -⟩ := daysToDate_eq (show days + 719468 < 2 ^ 64 by omega)
    rw [heq] at h
    cases h
  · by_cases hlt : days + 719468 < 2 ^ 64
    · obtain ⟨y', m', d', heq, hdate⟩ := daysToDate_eq hlt
      obtain ⟨⟩ := h.symm.trans heq
      exact hdate
    · rw [daysToDate_none hlt] at h
      cases h

/-- The last second of 1969 is printed as the second before the first of 1970. -/
theorem second_before_1970 : chronoFormatTimestamp (-1) = "1970-01-01 00:00:-1 UTC" ∧ calendarText (-1) = "1969-12-31 23:59:59 UTC" := by
  refine ⟨?_, ?_⟩ <;> decide

end Ekapkgs
