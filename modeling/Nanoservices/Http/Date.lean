import Mathlib.Tactic.IntervalCases
import Nanoservices.Http.Request
import Nanoservices.Library.Calendar
import Nanoservices.Library.Framing

/-!
# The date of a response

`http_date` of `scheduler.cc` writes the time as in `Sun, 06 Nov 1994 08:49:37 GMT`,
with the names of the days and the months in English. What it writes can be read back to
the second, and the day of the week in it is the right one (`date_reads`).
-/

namespace Nanoservices

open Utf16 Calendar Framing

/-! ### Numbers in a text -/

/-- The format `{}` of a number. -/
def formatNat (n : ℕ) : Bytes := (decimal n).map UInt16.toUInt8

/-- The format `{:02d}`. -/
def formatNat2 (n : ℕ) : Bytes := if n < 10 then 48 :: formatNat n else formatNat n

/-- The number a text of decimal digits denotes, `none` where there is anything else in
it. -/
def readNat (b : Bytes) : Option ℕ := toNumber (b.map UInt8.toUInt16)

/-- A digit is a byte. -/
theorem toUInt16_toUInt8_of_isDigit {c : UInt16} (h : isDigit c = true) :
    c.toUInt8.toUInt16 = c := by
  rw [isDigit, Bool.and_eq_true, decide_eq_true_eq, decide_eq_true_eq] at h
  refine UInt16.toNat_inj.1 ?_
  rw [UInt8.toNat_toUInt16, UInt16.toNat_toUInt8]
  omega

/-- A number in bytes is its decimal numeral. -/
theorem map_formatNat (n : ℕ) : (formatNat n).map UInt8.toUInt16 = decimal n := by
  have hdigits := List.all_eq_true.1 (all_isDigit_decimal n)
  rw [formatNat, List.map_map]
  refine (List.map_congr_left fun c hc => ?_).trans (List.map_id _)
  exact toUInt16_toUInt8_of_isDigit (hdigits c hc)

/-- A number that is written is read back. -/
@[simp] theorem readNat_formatNat (n : ℕ) : readNat (formatNat n) = some n := by
  rw [readNat, map_formatNat, toNumber_decimal]

/-- A leading zero does not change the number. -/
@[simp] theorem readNat_formatNat2 (n : ℕ) : readNat (formatNat2 n) = some n := by
  unfold formatNat2
  split
  -- a zero in front is a digit, and adds nothing
  · have hread := readNat_formatNat n
    rw [readNat, toNumber] at hread ⊢
    split at hread
    · next h =>
      have hall : ((48 :: formatNat n).map UInt8.toUInt16).all isDigit = true := by
        rw [List.map_cons, List.all_cons, h.2]
        rfl
      rw [if_pos ⟨List.cons_ne_nil _ _, hall⟩]
      exact hread
    · cases hread
  · exact readNat_formatNat n

/-- All bytes of a number are digits. -/
theorem notMem_formatNat {a : UInt8} (ha : a < 48 ∨ 57 < a) (n : ℕ) : a ∉ formatNat n := by
  intro hmem
  obtain ⟨c, hc, rfl⟩ := List.mem_map.1 hmem
  have hdigit := List.all_eq_true.1 (all_isDigit_decimal n) c hc
  rw [isDigit, Bool.and_eq_true, decide_eq_true_eq, decide_eq_true_eq] at hdigit
  simp only [UInt8.lt_iff_toNat_lt, UInt16.toNat_toUInt8, UInt8.reduceToNat] at ha
  omega

/-- Nor is there anything else in a number of two digits. -/
theorem notMem_formatNat2 {a : UInt8} (ha : a < 48 ∨ 57 < a) (n : ℕ) : a ∉ formatNat2 n := by
  have hnat := notMem_formatNat ha n
  unfold formatNat2
  split
  · rw [List.mem_cons, not_or]
    refine ⟨?_, hnat⟩
    rintro rfl
    simp at ha
  · exact hnat

/-- Up to 99 there are two of them. -/
theorem length_formatNat2 {n : ℕ} (h : n < 100) : (formatNat2 n).length = 2 := by
  have hall : ∀ n < 100, (formatNat2 n).length = 2 := by decide +kernel
  exact hall n h

/-- A year has four. -/
theorem length_formatNat {n : ℕ} (h : 1000 ≤ n) (h' : n < 10000) : (formatNat n).length = 4 := by
  have hlog : Nat.log 10 n = 3 := Nat.log_eq_of_pow_le_of_lt_pow (by omega) (by omega)
  rw [formatNat, List.length_map, decimal, if_neg (by omega), List.length_map, List.length_reverse,
    Nat.length_digits 10 n (by omega) (by omega), hlog]

/-! ### The time of day -/

/-- The fields of `struct tm` that the date shows. -/
structure Tm where
  tm_sec : ℕ
  tm_min : ℕ
  tm_hour : ℕ
  tm_mday : ℕ
  tm_mon : ℕ
  tm_year : ℕ
  tm_wday : ℕ

/-- `gmtime_r`: the day of the calendar, and the time of the day. The first of January
1970 was a Thursday. Leap seconds are not counted, as POSIX has it. -/
def gmtime (t : ℕ) : Tm :=
  let date := dateOf 1970 (t / 86400)
  { tm_sec := t % 60
    tm_min := t / 60 % 60
    tm_hour := t / 3600 % 24
    tm_mday := date.day
    tm_mon := date.month
    tm_year := date.year - 1900
    tm_wday := (t / 86400 + 4) % 7 }

/-- The names of the days, from Sunday on. -/
def days : List Bytes := ["Sun", "Mon", "Tue", "Wed", "Thu", "Fri", "Sat"].map bytes

/-- The names of the months. -/
def months : List Bytes :=
  ["Jan", "Feb", "Mar", "Apr", "May", "Jun", "Jul", "Aug", "Sep", "Oct", "Nov", "Dec"].map bytes

/-- `http_date`, at the time `t`: the `fmt::format` of its fields, with two digits where
the format says `{:02d}`. -/
def httpDate (t : ℕ) : Bytes :=
  let tm := gmtime t
  days.getD tm.tm_wday [] ++ bytes ", " ++ formatNat2 tm.tm_mday ++ bytes " " ++
    months.getD tm.tm_mon [] ++ bytes " " ++ formatNat (1900 + tm.tm_year) ++ bytes " " ++
    formatNat2 tm.tm_hour ++ bytes ":" ++ formatNat2 tm.tm_min ++ bytes ":" ++
    formatNat2 tm.tm_sec ++ bytes " GMT"

/-- Reads a date and checks that the day of the week is the right one. This is the
client's side: it cuts the text at its separators, looks the month up and counts the
days. -/
def readDate (s : Bytes) : Option ℕ := do
  let (wday, s) ← cutAt (bytes ", ") s
  let (mday, s) ← cutAt (bytes " ") s
  let (mon, s) ← cutAt (bytes " ") s
  let (year, s) ← cutAt (bytes " ") s
  let (hour, s) ← cutAt (bytes ":") s
  let (min, s) ← cutAt (bytes ":") s
  let (sec, zone) ← cutAt (bytes " ") s
  let day := dayNumber 1970 ⟨← readNat year, months.idxOf mon, ← readNat mday⟩
  if days.getD ((day + 4) % 7) [] = wday ∧ zone = bytes "GMT" then
    some (day * 86400 + (← readNat hour) * 3600 + (← readNat min) * 60 + (← readNat sec))
  else none

/-! ### Reading a date -/

/-- Names of days have three letters. -/
theorem length_days {k : ℕ} (h : k < 7) : (days.getD k []).length = 3 := by
  have hall : ∀ k < 7, (days.getD k []).length = 3 := by decide
  exact hall k h

/-- So do those of months. -/
theorem length_months {k : ℕ} (h : k < 12) : (months.getD k []).length = 3 := by
  have hall : ∀ k < 12, (months.getD k []).length = 3 := by decide
  exact hall k h

/-- The names of the months are different. -/
theorem idxOf_months {k : ℕ} (h : k < 12) : months.idxOf (months.getD k []) = k := by
  have hall : ∀ k < 12, months.idxOf (months.getD k []) = k := by decide
  exact hall k h

/-- Names of letters: nothing below `A` is in them. -/
theorem notMem_getD {names : List Bytes} (hnames : ∀ name ∈ names, ∀ b ∈ name, 65 ≤ b) {c : UInt8}
    (hc : c < 65) (k : ℕ) : c ∉ names.getD k [] := by
  rw [List.getD_eq_getElem?_getD]
  cases hname : names[k]? with
  | none => exact List.not_mem_nil
  | some name =>
    intro hmem
    exact UInt8.not_le.2 hc (hnames name (List.mem_of_getElem? hname) c hmem)

/-- No separator is in the name of a day. -/
theorem notMem_days {c : UInt8} (hc : c < 65) (k : ℕ) : c ∉ days.getD k [] :=
  notMem_getD (by decide +kernel) hc k

/-- Nor in that of a month. -/
theorem notMem_months {c : UInt8} (hc : c < 65) (k : ℕ) : c ∉ months.getD k [] :=
  notMem_getD (by decide +kernel) hc k

/-- The date has no control characters, so it can stand in a header. -/
theorem notMem_httpDate {c : UInt8} (hc : c < 32) (t : ℕ) : c ∉ httpDate t := by
  have hdigit : c < 48 ∨ 57 < c := .inl (UInt8.lt_of_lt_of_le hc (by decide))
  have hletter : c < 65 := UInt8.lt_of_lt_of_le hc (by decide)
  have hlit : ∀ b ∈ bytes ", :GMT", 32 ≤ b := by decide +kernel
  have hsep : ∀ s : Bytes, s ⊆ bytes ", :GMT" → c ∉ s := fun s hs hmem =>
    UInt8.not_le.2 hc (hlit c (hs hmem))
  simp only [httpDate, List.mem_append, not_or]
  exact ⟨⟨⟨⟨⟨⟨⟨⟨⟨⟨⟨⟨⟨notMem_days hletter _, hsep _ (by decide)⟩, notMem_formatNat2 hdigit _⟩,
    hsep _ (by decide)⟩, notMem_months hletter _⟩, hsep _ (by decide)⟩, notMem_formatNat hdigit _⟩,
    hsep _ (by decide)⟩, notMem_formatNat2 hdigit _⟩, hsep _ (by decide)⟩,
    notMem_formatNat2 hdigit _⟩, hsep _ (by decide)⟩, notMem_formatNat2 hdigit _⟩,
    hsep _ (by decide)⟩

/-- The date starts with a letter, so no blank is lost when the header is read. -/
theorem head?_httpDate (t : ℕ) : (httpDate t).head? ≠ some 32 := by
  have hlength : (days.getD (gmtime t).tm_wday []).length = 3 :=
    length_days (Nat.mod_lt _ (by decide))
  have hletters := notMem_days (c := 32) (by decide) (gmtime t).tm_wday
  simp only [httpDate, List.append_assoc]
  -- the text begins with the name of a day, which is a word
  cases hday : days.getD (gmtime t).tm_wday [] with
  | nil =>
    rw [hday] at hlength
    cases hlength
  | cons c day =>
    rw [hday] at hletters
    rintro heq
    obtain rfl := Option.some.inj heq
    exact hletters List.mem_cons_self

/-- The days up to the year 10000. -/
theorem sum_yearLengths : (yearLengths 1970 8030).sum = 2932897 := by decide +kernel

/-- The year is that of the calendar. -/
theorem gmtime_year (t : ℕ) : 1900 + (gmtime t).tm_year = (dateOf 1970 (t / 86400)).year :=
  Nat.add_sub_cancel' (Nat.le_trans (by decide) (le_year 1970 (t / 86400)))

/-- The fields are in their ranges. -/
theorem gmtime_lt (t : ℕ) : (gmtime t).tm_sec < 60 ∧ (gmtime t).tm_min < 60 ∧
    (gmtime t).tm_hour < 24 ∧ (gmtime t).tm_mday ≤ 31 ∧ (gmtime t).tm_mon < 12 ∧
    (gmtime t).tm_wday < 7 := by
  obtain ⟨hmonth, hday, -⟩ := dateOf_spec 1970 (t / 86400)
  exact ⟨Nat.mod_lt _ (by decide), Nat.mod_lt _ (by decide), Nat.mod_lt _ (by decide), hday, hmonth,
    Nat.mod_lt _ (by decide)⟩

/-- The length of an IMF-fixdate. From the year 10000 on there is one digit more. -/
theorem length_httpDate {t : ℕ} (h : t < 253402300800) : (httpDate t).length = 29 := by
  obtain ⟨hsec, hmin, hhour, hmday, hmon, hwday⟩ := gmtime_lt t
  have hlow := le_year 1970 (t / 86400)
  have hhigh : (dateOf 1970 (t / 86400)).year < 1970 + 8030 :=
    year_lt (by rw [sum_yearLengths]; omega)
  have hyear := gmtime_year t
  simp only [httpDate, List.length_append]
  rw [length_days hwday, length_formatNat2 (by omega), length_months hmon,
    length_formatNat (by omega) (by omega), length_formatNat2 (by omega),
    length_formatNat2 (by omega), length_formatNat2 (by omega)]
  rfl

/-- The time of day and the day are the time. -/
theorem time_eq (t : ℕ) : t / 86400 * 86400 + (gmtime t).tm_hour * 3600 + (gmtime t).tm_min * 60 +
    (gmtime t).tm_sec = t := by
  change t / 86400 * 86400 + t / 3600 % 24 * 3600 + t / 60 % 60 * 60 + t % 60 = t
  omega

/-- Each field is cut out at the separator behind it, and the day that is counted from
year, month and day of the month is the day of the time. -/
theorem readDate_httpDate (t : ℕ) : readDate (httpDate t) = some t := by
  obtain ⟨-, -, -, -, hmon, -⟩ := gmtime_lt t
  have hday : dayNumber 1970 ⟨1900 + (gmtime t).tm_year, (gmtime t).tm_mon, (gmtime t).tm_mday⟩ =
      t / 86400 := by
    rw [gmtime_year]
    exact dayNumber_dateOf 1970 (t / 86400)
  -- what stands in front of each separator does not have it
  have hcomma : ∀ {l : Bytes}, 44 ∉ l → ∀ s : Bytes, cutAt (bytes ", ") (l ++ (bytes ", " ++ s)) =
      some (l, s) := fun h s => cutAt_append h [32] s
  have hspace : ∀ {l : Bytes}, 32 ∉ l → ∀ s : Bytes, cutAt (bytes " ") (l ++ (bytes " " ++ s)) =
      some (l, s) := fun h s => cutAt_append h [] s
  have hcolon : ∀ {l : Bytes}, 58 ∉ l → ∀ s : Bytes, cutAt (bytes ":") (l ++ (bytes ":" ++ s)) =
      some (l, s) := fun h s => cutAt_append h [] s
  have hzone : bytes " GMT" = bytes " " ++ bytes "GMT" := rfl
  have hdigit : ∀ {c : UInt8}, c ∈ bytes " :" → c < 48 ∨ 57 < c := by decide +kernel
  have hblank := hdigit (show 32 ∈ bytes " :" by decide)
  have hdots := hdigit (show 58 ∈ bytes " :" by decide)
  -- the seven cuts, one after the other
  simp only [httpDate, List.append_assoc, hzone]
  refine Option.bind_eq_some_iff.2 ⟨_, hcomma (notMem_days (by decide) _) _, ?_⟩
  refine Option.bind_eq_some_iff.2 ⟨_, hspace (notMem_formatNat2 hblank _) _, ?_⟩
  refine Option.bind_eq_some_iff.2 ⟨_, hspace (notMem_months (by decide) _) _, ?_⟩
  refine Option.bind_eq_some_iff.2 ⟨_, hspace (notMem_formatNat hblank _) _, ?_⟩
  refine Option.bind_eq_some_iff.2 ⟨_, hcolon (notMem_formatNat2 hdots _) _, ?_⟩
  refine Option.bind_eq_some_iff.2 ⟨_, hcolon (notMem_formatNat2 hdots _) _, ?_⟩
  refine Option.bind_eq_some_iff.2 ⟨_, hspace (notMem_formatNat2 hblank _) _, ?_⟩
  simp only [Option.bind_eq_bind, Option.bind_some, readNat_formatNat, readNat_formatNat2,
    idxOf_months hmon, hday]
  rw [if_pos ⟨rfl, trivial⟩, time_eq]

/-- **A date reads back** to the second it was written for; its length is fixed up to
the year 9999. What is read includes the check of the day of the week.

Days are counted off year by year and month by month, and the same lengths added up give
the day back (`Calendar.dayNumber_dateOf`); the fields of the text are cut out at their
separators. -/
theorem date_reads {t : ℕ} (h : t < 253402300800) :
    (httpDate t).length = 29 ∧ readDate (httpDate t) = some t :=
  ⟨length_httpDate h, readDate_httpDate t⟩

/-- The date in the comment of `http_date`. -/
theorem date_reads_1994 : httpDate 784111777 = bytes "Sun, 06 Nov 1994 08:49:37 GMT" ∧
    (httpDate 784111777).length = 29 ∧ readDate (httpDate 784111777) = some 784111777 :=
  ⟨by decide +kernel, date_reads (by decide)⟩

end Nanoservices
