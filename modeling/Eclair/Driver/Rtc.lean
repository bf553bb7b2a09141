import Mathlib.Data.Nat.Bitwise
import Mathlib.Tactic.Ring
import Eclair.Basic
import Eclair.Lib.Calendar

/-!
# Eclair.Driver.Rtc

The time that `kernel/driver/rtc.c` computes from the registers of the clock
chip.

The chip reports a moment in one of four formats, which its status register
B names: bit 1 is set for 24-hour mode and bit 2 for binary numbers; in
12-hour mode, bit 7 of the hours is set after noon.  Bit 0 turns daylight
saving on and says nothing about the format.
-/

namespace Eclair

/-! ## the code -/

/-- `uint64_t` subtraction. -/
def sub64 (a b : Nat) : Nat := u64 (a + 2 ^ 64 - u64 b)

/-- `rtc_cmos_regs_t`, as far as the time depends on it. -/
structure RtcCmosRegs where
  seconds : UInt8
  minutes : UInt8
  hours : UInt8
  dayofmonth : UInt8
  month : UInt8
  year : UInt8
  statusB : UInt8

/-- `msec`: the seconds at the start of each month. -/
def msec : List Nat :=
  [0, 31 * 86400, 59 * 86400, 90 * 86400, 120 * 86400, 151 * 86400, 181 * 86400, 212 * 86400,
    243 * 86400, 273 * 86400, 304 * 86400, 334 * 86400]

/-- The centuries in `rem` years, and the years that are left. -/
def splitCenturies (rem : Nat) : Nat × Nat :=
  if rem ≥ 200 then
    if rem ≥ 300 then (3, rem - 300) else (2, rem - 200)
  else if rem ≥ 100 then (1, rem - 100)
  else (0, rem)

/-- The part of `ytosec` for years from 2039 on; `year` counts from 1900. -/
def ytosecCycles (year : Nat) : Nat × Bool :=
  let cycles := sub64 year 100 / 400
  let rem := sub64 year 100 % 400
  let centuries := (splitCenturies rem).1
  let rem' := (splitCenturies rem).2
  let leaps := if rem' = 0 then 0 else rem' / 4
  let isLeap := if rem = 0 then true else if rem' = 0 then false else decide (rem' % 4 = 0)
  let leaps := sub64 (leaps + 97 * cycles + 24 * centuries) (if isLeap then 1 else 0)
  (u64 (sub64 year 100 * 31536000 + leaps * 86400 + 946684800 + 86400), isLeap)

/-- `ytosec`; it leaves `is_leap` as it is before 1902. -/
def ytosec (year : Nat) (isLeap : Bool) : Nat × Bool :=
  if year < 1902 then (0, isLeap)
  else
    let year := year - 1900
    if year - 2 ≤ 136 then
      let leaps := sub64 year 68 >>> 2
      if sub64 year 68 &&& 3 = 0 then
        (u64 (31536000 * sub64 year 70 + 86400 * sub64 leaps 1), true)
      else (u64 (31536000 * sub64 year 70 + 86400 * leaps), false)
    else ytosecCycles year

/-- `mtosec`; there is no entry for a month behind December. -/
def mtosec (month : Nat) (isLeap : Bool) : Option Nat :=
  msec[month]?.map fun t => if isLeap ∧ month ≥ 2 then t + 86400 else t

/-- `BCD2INT` -/
def bcd2int (d : Nat) : Nat := (d >>> 4) * 10 + (d &&& 0xf)

/-- A register as `rtc_get_time` takes it. -/
def RtcCmosRegs.value (regs : RtcCmosRegs) (reg : UInt8) : Nat :=
  if regs.statusB.toNat &&& 0x1 = 0 then bcd2int reg.toNat else reg.toNat

/-- The correction of the hour in 12-hour mode. -/
def RtcCmosRegs.hour (regs : RtcCmosRegs) : Nat :=
  let tm_hour := regs.value regs.hours
  if regs.statusB.toNat &&& 0x2 = 0 then
    sub64 (if tm_hour &&& 0x80 ≠ 0 then (tm_hour &&& 0x7f) + 12 else tm_hour) 1
  else tm_hour

/-- `rtc_get_time`, with what the variable `is_leap` holds at the start. -/
def rtcGetTime (regs : RtcCmosRegs) (isLeap : Bool) : Option Nat :=
  let tm_mon := sub64 (regs.value regs.month) 1
  let tm_year := regs.value regs.year + 2000
  let year := ytosec tm_year isLeap
  (mtosec tm_mon year.2).map fun t =>
    u64 (year.1 + t + 86400 * sub64 (regs.value regs.dayofmonth) 1 + 3600 * regs.hour +
      60 * regs.value regs.minutes + regs.value regs.seconds)

/-! ## the chip -/

/-- A moment from 2000 to 2099. -/
structure Moment where
  year : Nat
  month : Nat
  day : Nat
  hour : Nat
  minute : Nat
  second : Nat
  year_range : 2000 ≤ year ∧ year ≤ 2099
  month_range : 1 ≤ month ∧ month ≤ 12
  day_range : 1 ≤ day ∧ day ≤ Calendar.daysInMonth year month
  hour_lt : hour < 24
  minute_lt : minute < 60
  second_lt : second < 60

/-- The seconds from 1970-01-01 00:00:00 to a moment. -/
def Moment.unixTime (m : Moment) : Nat :=
  Calendar.seconds m.year m.month m.day m.hour m.minute m.second

/-- The chip reports binary numbers. -/
def chipBinary (statusB : UInt8) : Bool := statusB.toNat.testBit 2

/-- The chip counts the hours from 0 to 23. -/
def chipHours24 (statusB : UInt8) : Bool := statusB.toNat.testBit 1

/-- A number as the chip reports it. -/
def chipByte (binary : Bool) (n : Nat) : UInt8 :=
  .ofNat (if binary then n else n / 10 * 16 + n % 10)

/-- An hour as the chip reports it. -/
def chipHour (binary hours24 : Bool) (h : Nat) : UInt8 :=
  if hours24 then chipByte binary h
  else chipByte binary (if h % 12 = 0 then 12 else h % 12) + if h ≥ 12 then 0x80 else 0

/-- The registers of the chip at a moment. -/
def Moment.report (m : Moment) (statusB : UInt8) : RtcCmosRegs where
  seconds := chipByte (chipBinary statusB) m.second
  minutes := chipByte (chipBinary statusB) m.minute
  hours := chipHour (chipBinary statusB) (chipHours24 statusB) m.hour
  dayofmonth := chipByte (chipBinary statusB) m.day
  month := chipByte (chipBinary statusB) m.month
  year := chipByte (chipBinary statusB) (m.year - 2000)
  statusB := statusB

/-! ## the condition -/

/-- The notation that the code takes the numbers to be in: binary if bit 0
is set. -/
def codeBinary (statusB : UInt8) : Bool := statusB.toNat.testBit 0

/-- Both notations of a number, or that of the chip and that of the code, are
the same. -/
def SameNotation (statusB : UInt8) (n : Nat) : Prop :=
  chipBinary statusB = codeBinary statusB ∨ n < if chipBinary statusB then 16 else 10

/-- 24-hour mode, and numbers that the code reads as the chip writes them. -/
def Moment.Readable (m : Moment) (statusB : UInt8) : Prop :=
  chipHours24 statusB = true ∧ SameNotation statusB (m.year - 2000) ∧
    SameNotation statusB m.month ∧ SameNotation statusB m.day ∧ SameNotation statusB m.hour ∧
    SameNotation statusB m.minute ∧ SameNotation statusB m.second

/-! ## what the code computes -/

section

variable {a b k n y : Nat} {isLeap : Bool} {regs : RtcCmosRegs} {reg statusB : UInt8}
variable {binary code : Bool} {m : Moment}

theorem sub64_of_le (h : b ≤ a) (ha : a < 2 ^ 64) : sub64 a b = a - b := by
  simp only [sub64, u64]
  omega

theorem u64_of_lt (h : n < 2 ^ 64) : u64 n = n := Nat.mod_eq_of_lt h

theorem daysBeforeYear_eq (hy : 1970 ≤ y) :
    Calendar.daysBeforeYear y + 477 = 365 * (y - 1970) + Calendar.leapsBefore y := by
  have h := Calendar.daysInYears_eq (show 1 ≤ 1970 by decide) (y - 1970)
  rwa [Nat.add_sub_cancel' hy] at h

theorem splitCenturies_eq (h : n < 400) : splitCenturies n = (n / 100, n % 100) := by
  unfold splitCenturies
  split_ifs <;> (simp only [Prod.mk.injEq]; omega)

/-- The leap years up to `2000 + k`, counted by cycles, centuries and the
years that are left. -/
theorem leapsBefore_cycles (k : Nat) :
    Calendar.leapsBefore (2000 + k) + (if Calendar.isLeap (2000 + k) then 1 else 0) =
      485 + (k % 400 % 100 / 4 + 97 * (k / 400) + 24 * (k % 400 / 100)) := by
  have hleap := Calendar.isLeap_eq_true (y := 2000 + k)
  simp only [Calendar.leapsBefore]
  split
  · next h =>
      rw [hleap] at h
      omega
  · next h =>
      rw [hleap] at h
      omega

theorem isLeap_cycles (k : Nat) :
    (if k % 400 = 0 then true else if k % 400 % 100 = 0 then false
      else decide (k % 400 % 100 % 4 = 0)) = Calendar.isLeap (2000 + k) := by
  rw [Bool.eq_iff_iff, Calendar.isLeap_eq_true]
  split_ifs <;> simp <;> omega

theorem ytosecCycles_eq (hk : 1 ≤ k) (hlt : k < 2 ^ 32) :
    ytosecCycles (k + 100) =
      (86400 * Calendar.daysBeforeYear (2000 + k), Calendar.isLeap (2000 + k)) := by
  have hdays := daysBeforeYear_eq (y := 2000 + k) (by omega)
  have hleaps := leapsBefore_cycles k
  have hbounds : 485 ≤ Calendar.leapsBefore (2000 + k) ∧
      Calendar.leapsBefore (2000 + k) ≤ 2000 + k := by
    simp only [Calendar.leapsBefore]
    omega
  have hzero : (if k % 400 % 100 = 0 then 0 else k % 400 % 100 / 4) = k % 400 % 100 / 4 := by
    split_ifs with h
    · simp [h]
    · rfl
  simp only [ytosecCycles, sub64_of_le (Nat.le_add_left 100 k) (show k + 100 < 2 ^ 64 by omega),
    Nat.add_sub_cancel, splitCenturies_eq (Nat.mod_lt k (show 400 > 0 by decide)), hzero,
    isLeap_cycles]
  generalize Calendar.daysBeforeYear (2000 + k) = days at hdays
  generalize Calendar.leapsBefore (2000 + k) = leaps at hdays hleaps hbounds
  generalize k % 400 % 100 / 4 + 97 * (k / 400) + 24 * (k % 400 / 100) = parts at hleaps
  have hleap : (if Calendar.isLeap (2000 + k) then 1 else 0) ≤ 1 := by split <;> decide
  generalize (if Calendar.isLeap (2000 + k) then 1 else 0) = leap at hleaps hleap
  rw [sub64_of_le (by omega) (by omega), u64_of_lt (by omega)]
  congr 1
  omega

/-- **`ytosec` is right** for every year from 1970 on. -/
theorem ytosec_eq (hy : 1970 ≤ y) (hlt : y < 2 ^ 32) :
    ytosec y isLeap = (86400 * Calendar.daysBeforeYear y, Calendar.isLeap y) := by
  have hcond : (y - 1900 - 2 ≤ 136) = (y ≤ 2038) := by
    simp only [eq_iff_iff]
    omega
  rw [ytosec, if_neg (by omega)]
  simp only [hcond]
  by_cases hle : y ≤ 2038
  · rw [if_pos hle]
    have hdays := daysBeforeYear_eq hy
    have hleap := Calendar.isLeap_eq_true (y := y)
    simp only [Calendar.leapsBefore] at hdays
    generalize Calendar.daysBeforeYear y = days at hdays
    have hsub : ∀ n ≤ 70, sub64 (y - 1900) n = y - 1900 - n :=
      fun n hn => sub64_of_le (by omega) (by omega)
    rw [hsub 68 (by decide), hsub 70 (by decide), Nat.shiftRight_eq_div_pow,
      Nat.and_two_pow_sub_one_eq_mod _ 2]
    split_ifs with h
    · rw [sub64_of_le (by omega) (by omega), u64_of_lt (by omega), hleap.mpr (by omega),
        show 31536000 * (y - 1900 - 70) + 86400 * ((y - 1900 - 68) / 4 - 1) = 86400 * days by omega]
    · rw [u64_of_lt (by omega), Bool.eq_false_iff.mpr (mt hleap.mp (by omega)),
        show 31536000 * (y - 1900 - 70) + 86400 * ((y - 1900 - 68) / 4) = 86400 * days by omega]
  · rw [if_neg hle]
    have h := ytosecCycles_eq (k := y - 2000) (by omega) (by omega)
    rwa [show y - 2000 + 100 = y - 1900 by omega, show 2000 + (y - 2000) = y by omega] at h

/-- **`mtosec` is right** for every month. -/
theorem mtosec_eq (hn : 1 ≤ n ∧ n ≤ 12) :
    mtosec (n - 1) (Calendar.isLeap y) = some (86400 * Calendar.daysBeforeMonth y n) := by
  rw [Calendar.daysBeforeMonth_eq hn]
  obtain ⟨k, rfl⟩ : ∃ k, n = k + 1 := ⟨n - 1, by omega⟩
  have htable : ∀ k < 12, msec[k]? = some (86400 *
      [0, 31, 59, 90, 120, 151, 181, 212, 243, 273, 304, 334].getD k 0) := by
    decide
  have hmonth : (k ≥ 2) = (3 ≤ k + 1) := by
    simp only [eq_iff_iff]
    omega
  simp only [Nat.add_sub_cancel, mtosec, htable k (by omega), Option.map_some, hmonth]
  split_ifs <;> rfl

theorem bcd2int_eq (d : Nat) : bcd2int d = d / 16 * 10 + d % 16 := by
  rw [bcd2int, Nat.shiftRight_eq_div_pow, Nat.and_two_pow_sub_one_eq_mod d 4]

theorem and_one_eq_zero (n : Nat) : n &&& 0x1 = 0 ↔ n.testBit 0 = false := by
  have h := Nat.and_two_pow n 0
  rw [Nat.pow_zero] at h
  rw [h]
  cases n.testBit 0 <;> simp

theorem and_two_eq_zero (n : Nat) : n &&& 0x2 = 0 ↔ n.testBit 1 = false := by
  have h := Nat.and_two_pow n 1
  rw [Nat.pow_one] at h
  rw [h]
  cases n.testBit 1 <;> simp

/-- A byte in the notation that the code takes it to be in. -/
def fixByte (code : Bool) (n : Nat) : Nat := if code then n else bcd2int n

theorem value_eq : regs.value reg = fixByte (codeBinary regs.statusB) reg.toNat := by
  simp only [RtcCmosRegs.value, fixByte, codeBinary, and_one_eq_zero]
  by_cases h : regs.statusB.toNat.testBit 0 = true <;> simp [h]

theorem value_lt (regs : RtcCmosRegs) (reg : UInt8) : regs.value reg < 256 := by
  have h := reg.toNat_lt
  rw [value_eq, fixByte, bcd2int_eq]
  split_ifs <;> omega

/-- The code computes the seconds up to the moment that it reads. -/
theorem rtcGetTime_eq (hmonth : 1 ≤ regs.value regs.month ∧ regs.value regs.month ≤ 12)
    (hday : 1 ≤ regs.value regs.dayofmonth) (hhour : regs.hour < 2 ^ 32) :
    rtcGetTime regs isLeap = some (Calendar.seconds (regs.value regs.year + 2000)
      (regs.value regs.month) (regs.value regs.dayofmonth) regs.hour (regs.value regs.minutes)
      (regs.value regs.seconds)) := by
  have hyear := value_lt regs regs.year
  have hd := value_lt regs regs.dayofmonth
  have hmi := value_lt regs regs.minutes
  have hs := value_lt regs regs.seconds
  have hdays := daysBeforeYear_eq (y := regs.value regs.year + 2000) (by omega)
  have hmonths := Calendar.daysBeforeMonth_le (y := regs.value regs.year + 2000) hmonth
  simp only [Calendar.leapsBefore] at hdays
  simp only [rtcGetTime, @ytosec_eq _ isLeap
      (show 1970 ≤ regs.value regs.year + 2000 by omega) (by omega),
    sub64_of_le hmonth.1 (show _ < 2 ^ 64 by omega), mtosec_eq hmonth, Option.map_some,
    sub64_of_le hday (show _ < 2 ^ 64 by omega), Calendar.seconds]
  rw [u64_of_lt (by omega)]
  congr 1
  ring

/-- There is no month behind December. -/
theorem rtcGetTime_none (hmonth : 12 < regs.value regs.month) : rtcGetTime regs isLeap = none := by
  have hlt := value_lt regs regs.month
  have hnone : msec[regs.value regs.month - 1]? = none :=
    List.getElem?_eq_none (show 12 ≤ _ by omega)
  simp only [rtcGetTime, sub64_of_le (show 1 ≤ regs.value regs.month by omega)
    (show _ < 2 ^ 64 by omega), mtosec, hnone, Option.map_none]

end

/-! ## what the code reads -/

/-- The number that the code reads where the chip reports `n`: in the other
notation it is off by 6 for each carry. -/
def readAs (statusB : UInt8) (n : Nat) : Nat :=
  if chipBinary statusB = codeBinary statusB then n
  else if chipBinary statusB then n - 6 * (n / 16)
  else n + 6 * (n / 10)

section

variable {n : Nat} {isLeap : Bool} {statusB : UInt8} {binary : Bool} {m : Moment}

theorem toNat_chipByte (hn : n < 100) :
    (chipByte binary n).toNat = if binary then n else n / 10 * 16 + n % 10 := by
  unfold chipByte
  cases binary <;> simp <;> omega

theorem value_report (hn : n < 100) :
    (m.report statusB).value (chipByte (chipBinary statusB) n) = readAs statusB n := by
  rw [value_eq, toNat_chipByte hn, fixByte, show (m.report statusB).statusB = statusB from rfl,
    bcd2int_eq, readAs]
  cases chipBinary statusB <;> cases codeBinary statusB <;> simp <;> omega

theorem readAs_eq_iff : readAs statusB n = n ↔ SameNotation statusB n := by
  unfold readAs SameNotation
  by_cases hsame : chipBinary statusB = codeBinary statusB
  · simp [hsame]
  · simp only [hsame, if_false, false_or]
    split <;> omega

theorem readAs_le (hb : chipBinary statusB = true) : readAs statusB n ≤ n := by
  simp only [readAs, hb, if_true]
  split_ifs <;> omega

theorem le_readAs (hb : chipBinary statusB = false) : n ≤ readAs statusB n := by
  simp only [readAs, hb, Bool.false_eq_true, if_false]
  split_ifs <;> omega

/-- A number that is not read as it is is off by 6 at least. -/
theorem readAs_far (statusB : UInt8) (n : Nat) :
    readAs statusB n = n ∨ readAs statusB n + 6 ≤ n ∨ n + 6 ≤ readAs statusB n := by
  unfold readAs
  split_ifs <;> omega

theorem one_le_readAs (hn : 1 ≤ n) : 1 ≤ readAs statusB n := by
  unfold readAs
  split_ifs <;> omega

/-- Minutes and seconds are off by 30 at most. -/
theorem readAs_near (statusB : UInt8) (hn : n < 60) :
    n ≤ readAs statusB n + 30 ∧ readAs statusB n ≤ n + 30 := by
  unfold readAs
  split_ifs <;> omega

/-- A month is read as it is, or as one behind December. -/
theorem readAs_month (statusB : UInt8) (hn : n ≤ 12) : readAs statusB n = n ∨ 12 < readAs statusB n := by
  unfold readAs
  split_ifs <;> omega

/-- In 24-hour mode, hours are like the other numbers. -/
theorem hour_report (h24 : chipHours24 statusB = true) :
    (m.report statusB).hour = readAs statusB m.hour := by
  have hbit : ¬statusB.toNat &&& 0x2 = 0 := by
    rw [and_two_eq_zero, show statusB.toNat.testBit 1 = true from h24]
    nofun
  have hreg : (m.report statusB).hours = chipByte (chipBinary statusB) m.hour := if_pos h24
  have hlt := m.hour_lt
  rw [RtcCmosRegs.hour, show (m.report statusB).statusB = statusB from rfl, if_neg hbit, hreg,
    value_report (by omega)]

theorem hour12_table : ∀ binary code : Bool, ∀ h < 24,
    let v := fixByte code (chipHour binary false h).toNat
    let hour := sub64 (if v &&& 0x80 ≠ 0 then (v &&& 0x7f) + 12 else v) 1
    (hour + 24 - h) % 24 ∈ [5, 7, 11, 17, 19, 23] ∧ hour < 256 := by
  decide

/-- **In 12-hour mode, the hour is wrong** at every time of the day. -/
theorem hour_report_wrong (h12 : chipHours24 statusB = false) :
    ((m.report statusB).hour + 24 - m.hour) % 24 ∈ [5, 7, 11, 17, 19, 23] ∧
      (m.report statusB).hour < 256 := by
  have hbit : statusB.toNat &&& 0x2 = 0 := (and_two_eq_zero _).mpr h12
  have hreg : (m.report statusB).hours = chipHour (chipBinary statusB) false m.hour := by
    rw [← h12]
    rfl
  rw [RtcCmosRegs.hour, show (m.report statusB).statusB = statusB from rfl, if_pos hbit, value_eq,
    hreg]
  exact hour12_table _ _ _ m.hour_lt

/-- The code returns the seconds up to the moment that it reads, unless it
looks for a month that there is not. -/
theorem rtcGetTime_report (m : Moment) (statusB : UInt8) (isLeap : Bool) :
    (12 < readAs statusB m.month ∧ rtcGetTime (m.report statusB) isLeap = none) ∨
    (readAs statusB m.month = m.month ∧ rtcGetTime (m.report statusB) isLeap =
      some (Calendar.seconds (readAs statusB (m.year - 2000) + 2000) m.month
        (readAs statusB m.day) (m.report statusB).hour (readAs statusB m.minute)
        (readAs statusB m.second))) := by
  have hyear := m.year_range
  have hmonth := m.month_range
  have hday := m.day_range
  have hle := Calendar.daysInMonth_le m.year m.month
  have hmi := m.minute_lt
  have hs := m.second_lt
  have hv : ∀ {n}, n < 100 → (m.report statusB).value (chipByte (chipBinary statusB) n) =
      readAs statusB n := value_report
  obtain hmon | hmon := readAs_month statusB hmonth.2
  · refine .inr ⟨hmon, ?_⟩
    have hhour : (m.report statusB).hour < 2 ^ 32 := by
      cases h24 : chipHours24 statusB with
      | true =>
          rw [hour_report h24, readAs]
          have hlt := m.hour_lt
          split_ifs <;> omega
      | false => exact (hour_report_wrong h24).2.trans (by decide)
    have h := @rtcGetTime_eq isLeap (m.report statusB)
    simp only [Moment.report] at h hv ⊢
    rw [hv (by omega), hv (by omega), hv (by omega), hv (by omega), hv (by omega), hmon] at h
    exact h hmonth (one_le_readAs hday.1) hhour
  · refine .inl ⟨hmon, rtcGetTime_none ?_⟩
    rw [show (m.report statusB).month = chipByte (chipBinary statusB) m.month from rfl,
      hv (by omega)]
    exact hmon

/-- The time of a chip in 12-hour mode is off by hours. -/
theorem rtcGetTime_ne_unixTime (isLeap : Bool) (h12 : chipHours24 statusB = false) :
    rtcGetTime (m.report statusB) isLeap ≠ some m.unixTime := by
  intro heq
  obtain ⟨-, hnone⟩ | ⟨-, hsome⟩ := rtcGetTime_report m statusB isLeap
  · rw [hnone] at heq
    contradiction
  · rw [hsome, Option.some_inj, Moment.unixTime] at heq
    have hhour := m.hour_lt
    have hwrong := (hour_report_wrong (m := m) h12).1
    have hmi := readAs_near statusB m.minute_lt
    have hs := readAs_near statusB m.second_lt
    simp only [Calendar.seconds, List.mem_cons, List.not_mem_nil, or_false] at heq hwrong
    omega

end

/-! ## the property -/

/-- **The time is right** exactly in 24-hour mode, if the code reads the
numbers as the chip writes them. -/
theorem rtcGetTime_eq_unixTime_iff (m : Moment) (statusB : UInt8) (isLeap : Bool) :
    rtcGetTime (m.report statusB) isLeap = some m.unixTime ↔ m.Readable statusB := by
  have hyear := m.year_range
  have hday := m.day_range
  have hle := Calendar.daysInMonth_le m.year m.month
  have hh := m.hour_lt
  have hmi := m.minute_lt
  have hs := m.second_lt
  simp only [Moment.Readable, ← readAs_eq_iff]
  obtain ⟨hmon, hnone⟩ | ⟨hmon, hsome⟩ := rtcGetTime_report m statusB isLeap
  · rw [hnone]
    have hmonth := m.month_range
    exact ⟨nofun, fun h => by omega⟩
  rw [hsome, Option.some_inj, Moment.unixTime]
  cases h24 : chipHours24 statusB with
  | false =>
      have hne : rtcGetTime (m.report statusB) isLeap ≠ some m.unixTime :=
        rtcGetTime_ne_unixTime isLeap h24
      rw [hsome, Ne, Option.some_inj] at hne
      exact ⟨fun heq => absurd heq hne, nofun⟩
  | true =>
      rw [hour_report h24]
      constructor
      · intro heq
        have hfar := readAs_far statusB (m.year - 2000)
        cases hb : chipBinary statusB with
        | true =>
            have hlow : ∀ n, readAs statusB n ≤ n := fun n => readAs_le hb
            obtain ⟨hy, hd, hh', hmi', hs'⟩ := Calendar.seconds_inj (by omega)
              (by have := hlow (m.year - 2000); omega) m.month_range
              ⟨one_le_readAs hday.1, (hlow _).trans (by omega)⟩ ((hlow _).trans_lt hh)
              ((hlow _).trans_lt hmi) ((hlow _).trans_lt hs) (hlow _) (hlow _) (hlow _) (hlow _) heq
            exact ⟨rfl, by omega, hmon, hd, hh', hmi', hs'⟩
        | false =>
            have hhigh : ∀ n, n ≤ readAs statusB n := fun n => le_readAs hb
            obtain ⟨hy, hd, hh', hmi', hs'⟩ := Calendar.seconds_inj (by omega)
              (by have := hhigh (m.year - 2000); omega) m.month_range ⟨hday.1, by omega⟩ hh hmi hs
              (hhigh _) (hhigh _) (hhigh _) (hhigh _) heq.symm
            exact ⟨rfl, by omega, hmon, hd.symm, hh'.symm, hmi'.symm, hs'.symm⟩
      · rintro ⟨-, hy, -, hd, hh', hmi', hs'⟩
        rw [hy, hd, hh', hmi', hs', show m.year - 2000 + 2000 = m.year by omega]

/-- One in the afternoon of 2000-01-01. -/
def afternoon : Moment :=
  ⟨2000, 1, 1, 13, 0, 0, by decide, by decide, by decide, by decide, by decide, by decide⟩

/-- **The time of a chip in 12-hour mode** is wrong. -/
theorem not_rtcGetTime_eq_unixTime :
    ¬∀ (m : Moment) (statusB : UInt8) (isLeap : Bool),
      rtcGetTime (m.report statusB) isLeap = some m.unixTime := by
  intro h
  have hwrong := h afternoon 0 false
  exact rtcGetTime_ne_unixTime false (by decide) hwrong

end Eclair
