import Mathlib.Data.List.Basic

namespace Walleye.Alarms

/-- The values one field of a schedule allows, one flag per value from `low` on; `any` says that it
was written as a star. -/
structure Field where
  allowed : List Bool
  low : Nat
  any : Bool
deriving DecidableEq, Repr

structure Schedule where
  minute : Field
  hour : Field
  day : Field
  month : Field
  weekday : Field
deriving DecidableEq, Repr

structure Civil where
  month : Nat
  day : Nat
  hour : Nat
  minute : Nat
  weekday : Nat
deriving DecidableEq, Repr

def Field.matches (field : Field) (value : Nat) : Bool :=
  if value < field.low then false else field.allowed[value - field.low]?.getD false

def civilFromDays (days : Int) : Int × Nat × Nat :=
  let z := days + 719468
  let era := z / 146097
  let doe := z % 146097
  let yoe := (doe - doe / 1460 + doe / 36524 - doe / 146096) / 365
  let year := yoe + era * 400
  let doy := doe - (365 * yoe + yoe / 4 - yoe / 100)
  let mp := (5 * doy + 2) / 153
  let day := (doy - (153 * mp + 2) / 5 + 1).toNat
  let month := (if mp < 10 then mp + 3 else mp - 9).toNat
  (if month ≤ 2 then year + 1 else year, month, day)

def Civil.fromEpoch (seconds : Int) : Civil :=
  let days := seconds / 86400
  let rest := seconds % 86400
  let (_, month, day) := civilFromDays days
  { month, day, hour := (rest / 3600).toNat, minute := (rest % 3600 / 60).toNat,
    weekday := ((days + 4) % 7).toNat }

def Schedule.matches (schedule : Schedule) (instant : Civil) : Bool :=
  if !schedule.minute.matches instant.minute || !schedule.hour.matches instant.hour then false
  else if !schedule.month.matches instant.month then false
  else match schedule.day.any, schedule.weekday.any with
    | false, false => schedule.day.matches instant.day || schedule.weekday.matches instant.weekday
    | _, _ => schedule.day.matches instant.day && schedule.weekday.matches instant.weekday

def Schedule.search (schedule : Schedule) : Nat → Int → Option Int
  | 0, _ => none
  | minutes + 1, instant =>
    if schedule.matches (Civil.fromEpoch instant) then some instant
    else schedule.search minutes (instant + 60)

/-- The first second of the next minute the schedule names within four years, strictly after
`after`. -/
def Schedule.nextAfter (schedule : Schedule) (after : Int) : Option Int :=
  schedule.search (4 * 366 * 24 * 60) ((after.tdiv 60 + 1) * 60)

theorem Schedule.search_le {schedule : Schedule}
    (h : schedule.search minutes start = some found) : start ≤ found := by
  induction minutes generalizing start with
  | zero => cases h
  | succ minutes ih =>
    unfold Schedule.search at h
    split at h
    · cases h
      exact Int.le_refl _
    · have := ih h
      omega

theorem Schedule.lt_nextAfter {schedule : Schedule}
    (h : schedule.nextAfter after = some found) : after < found := by
  have hl := Schedule.search_le h
  have hm : after < (after.tdiv 60 + 1) * 60 := by
    have hd := Int.mul_tdiv_add_tmod after 60
    have hmo := Int.tmod_lt_of_pos after (show (0 : Int) < 60 by decide)
    omega
  omega

section Calendar

theorem dayOfYear_bounds {doe yoe leaps centuries cycles : Int} (h0 : 0 ≤ doe) (h1 : doe < 146097)
    (hlea : doe / 1460 = leaps) (hcen : doe / 36524 = centuries)
    (hc : doe / 146096 = cycles) (hy : (doe - leaps + centuries - cycles) / 365 = yoe) :
    0 ≤ doe - (365 * yoe + yoe / 4 - yoe / 100) ∧
      doe - (365 * yoe + yoe / 4 - yoe / 100) ≤ 365 := by
  have hs : centuries = 0 ∨ centuries = 1 ∨ centuries = 2 ∨ centuries = 3 ∨ centuries = 4 := by
    omega
  rcases hs with rfl | rfl | rfl | rfl | rfl
  · have hce : yoe / 100 = 0 := by omega
    have hl : yoe / 4 ≤ leaps := by omega
    omega
  · have hce : yoe / 100 = 1 := by omega
    have hl : yoe / 4 ≤ leaps := by omega
    omega
  · have hce : yoe / 100 = 2 := by omega
    have hl : yoe / 4 ≤ leaps := by omega
    omega
  · have hce : yoe / 100 = 3 := by omega
    have hl : yoe / 4 ≤ leaps := by omega
    omega
  · have hce : yoe / 100 = 3 := by omega
    have hl : yoe / 4 ≤ leaps := by omega
    omega

theorem civilFromDays_bounds (days : Int) :
    1 ≤ (civilFromDays days).2.1 ∧ (civilFromDays days).2.1 ≤ 12 ∧
      1 ≤ (civilFromDays days).2.2 ∧ (civilFromDays days).2.2 ≤ 31 := by
  have h0 := Int.emod_nonneg (days + 719468) (show (146097 : Int) ≠ 0 by decide)
  have h1 := Int.emod_lt_of_pos (days + 719468) (show (0 : Int) < 146097 by decide)
  have hd := dayOfYear_bounds h0 h1 rfl rfl rfl rfl
  simp only [civilFromDays]
  generalize (days + 719468) % 146097 - _ = doy at hd ⊢
  refine ⟨?_,?_,?_,?_⟩
  · split <;> omega
  · split <;> omega
  · omega
  · omega

end Calendar

section EveryMinute

def Field.star (low high : Nat) : Field := ⟨List.replicate (high - low + 1) true, low, true⟩

theorem Field.star_matches {low high value : Nat} (hl : low ≤ value) (hh : value ≤ high) :
    (Field.star low high).matches value = true := by
  have hlt : value - low < high - low + 1 := by omega
  simp [Field.matches,Field.star,hl,hlt]

def Schedule.everyMinute : Schedule where
  minute := .star 0 59
  hour := .star 0 23
  day := .star 1 31
  month := .star 1 12
  weekday := .star 0 6

theorem Schedule.everyMinute_matches (seconds : Int) :
    Schedule.everyMinute.matches (Civil.fromEpoch seconds) = true := by
  obtain ⟨hm,hm',hd,hd'⟩ := civilFromDays_bounds (seconds / 86400)
  have hmi : (seconds % 86400 % 3600 / 60).toNat ≤ 59 := by omega
  have hh : (seconds % 86400 / 3600).toNat ≤ 23 := by omega
  have hw : ((seconds / 86400 + 4) % 7).toNat ≤ 6 := by omega
  simp only [Schedule.matches,Schedule.everyMinute,Civil.fromEpoch,
    Field.star_matches (Nat.zero_le _) hmi,Field.star_matches (Nat.zero_le _) hh,
    Field.star_matches hm hm',Field.star_matches hd hd',
    Field.star_matches (Nat.zero_le _) hw]
  rfl

theorem Schedule.everyMinute_nextAfter (after : Int) :
    Schedule.everyMinute.nextAfter after = some ((after.tdiv 60 + 1) * 60) := by
  rw [Schedule.nextAfter,Schedule.search,if_pos (Schedule.everyMinute_matches _)]

end EveryMinute

end Walleye.Alarms
