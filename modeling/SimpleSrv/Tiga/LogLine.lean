import Mathlib.Algebra.Ring.Int.Defs
import SimpleSrv.Lib.Delimited
import SimpleSrv.Tiga.Patterns

/-! The lines of the default pattern, which say everything that they have been printed from. -/

namespace SimpleSrv.Tiga

open InformationTheory

/-- The pattern that the constructor of `Logger` gives to every logger. -/
def defaultPattern : Text :=
  "%d\x7b%Y-%m-%d %H:%M:%S\x7d%T%t%T%F%T[%p]%T[%c]%T%f:%l%T%m%n".toList

/-- The items of the default pattern. -/
theorem init_defaultPattern : LogFormatter.init defaultPattern =
    ⟨[.dateTime defaultDateTime, .tab, .threadId, .tab, .fiberId, .tab, .string ['['], .level,
      .string [']'], .tab, .string ['['], .name, .string [']'], .tab, .filename, .string [':'],
      .line, .tab, .message, .newLine]⟩ := by
  -- The pattern is a literal, so the scanner can be run on it; two formatters agree if their items
  -- do.
  have items : (LogFormatter.init defaultPattern).items =
      [.dateTime defaultDateTime, .tab, .threadId, .tab, .fiberId, .tab, .string ['['], .level,
        .string [']'], .tab, .string ['['], .name, .string [']'], .tab, .filename, .string [':'],
        .line, .tab, .message, .newLine] := by decide +kernel
  exact congrArg LogFormatter.mk items

/-- The fields of a `struct tm` are within the ranges that `localtime_r` gives them. -/
structure Tm.InRange (tm : Tm) : Prop where
  sec : tm.sec ≤ 60
  min : tm.min < 60
  hour : tm.hour < 24
  mday : tm.mday ≤ 31
  mon : tm.mon < 12
  year : -2 ^ 31 ≤ tm.year ∧ tm.year < 2 ^ 31

/-- What a line of the default pattern is printed from. -/
structure Printed where
  tm : Tm
  threadId : UInt32
  fiberId : UInt32
  level : LogLevel
  name : Text
  file : Text
  line : Int32
  content : Text

/-- The date in the format that `DateTimeFormatItem` falls back to. -/
def dateParts : List (Tm → Text) :=
  [fun tm => decimal (tm.year + 1900), fun _ => ['-'], fun tm => twoDigits (tm.mon + 1),
    fun _ => ['-'], fun tm => twoDigits tm.mday, fun _ => [' '], fun tm => twoDigits tm.hour,
    fun _ => [':'], fun tm => twoDigits tm.min, fun _ => [':'], fun tm => twoDigits tm.sec]

/-- The parts of a line between its tabs. -/
def lineParts : List (Printed → Text) :=
  [fun p => written dateParts p.tm, fun _ => ['\t'], fun p => decimal p.threadId.toNat,
    fun _ => ['\t'], fun p => decimal p.fiberId.toNat, fun _ => ['\t'], fun _ => ['['],
    fun p => p.level.toText, fun _ => [']'], fun _ => ['\t'], fun _ => ['['], Printed.name,
    fun _ => [']'], fun _ => ['\t'], Printed.file, fun _ => [':'], fun p => decimal p.line.toInt,
    fun _ => ['\t'], Printed.content]

/-- A line of the default pattern. -/
def Printed.text (p : Printed) : Text := written lineParts p ++ ['\n']

/-- What the logger and its event become in a line. -/
def printed (tm : Tm) (logger : Logger) (level : LogLevel) (event : LogEvent) : Printed where
  tm := tm
  threadId := event.threadId
  fiberId := event.fiberId
  level := level
  name := logger.name
  file := event.file
  line := event.line
  content := event.content

/-- Numbers have no other characters than digits and a sign. -/
theorem mem_decimal {n : Int} {ch : Char} (member : ch ∈ decimal n) : ch = '-' ∨ ch.isDigit := by
  -- A sign only stands before the digits of a negative number.
  unfold decimal at member
  have digits : ch ∈ Nat.toDigits 10 n.natAbs → ch.isDigit :=
    Nat.isDigit_of_mem_toDigits (by decide) (by decide)
  split at member
  · exact (List.mem_cons.mp member).imp_right digits
  · exact .inr (digits member)

/-- Numbers in two digits have digits only. -/
theorem mem_twoDigits {n : Nat} {ch : Char} (member : ch ∈ twoDigits n) : ch.isDigit := by
  unfold twoDigits at member
  have digits : ch ∈ Nat.toDigits 10 n → ch.isDigit :=
    Nat.isDigit_of_mem_toDigits (by decide) (by decide)
  split at member
  · rcases List.mem_cons.mp member with rfl | digit
    · decide
    · exact digits digit
  · exact digits member

/-- Different numbers have different digits. -/
theorem toDigits_inj {m n : Nat} (same : Nat.toDigits 10 m = Nat.toDigits 10 n) : m = n := by
  rw [← Nat.ofDigitChars_ten_toDigits (n := m), same, Nat.ofDigitChars_ten_toDigits]

/-- Different numbers are printed differently. -/
theorem decimal_inj {m n : Int} (same : decimal m = decimal n) : m = n := by
  -- Only a negative number begins with a sign.
  have unsigned : ∀ k l : Nat, '-' :: Nat.toDigits 10 k ≠ Nat.toDigits 10 l := by
    intro k l same
    have sign : '-' ∈ Nat.toDigits 10 l := same ▸ List.mem_cons_self
    have digit := Nat.isDigit_of_mem_toDigits (by decide) (by decide) sign
    exact absurd digit (by decide)
  unfold decimal at same
  split at same <;> split at same
  · have magnitude := toDigits_inj (List.cons.inj same).2
    omega
  · exact absurd same (unsigned _ _)
  · exact absurd same.symm (unsigned _ _)
  · have magnitude := toDigits_inj same
    omega

/-- A leading zero changes no number. -/
theorem twoDigits_inj {m n : Nat} (same : twoDigits m = twoDigits n) : m = n := by
  -- Reading the digits back gives the number, with a leading zero or without.
  have value : ∀ k, Nat.ofDigitChars 10 (twoDigits k) 0 = k := by
    intro k
    unfold twoDigits
    split
    · exact Nat.ofDigitChars_ten_toDigits
    · exact Nat.ofDigitChars_ten_toDigits
  rw [← value m, same, value]

/-- The date of the default format, as `strftime` writes it. -/
theorem strftimeText_default (libc : Libc) (tm : Tm) :
    libc.strftimeText tm (cString defaultDateTime) = some (written dateParts tm) := by
  -- The format is spelled out first, and then converted character by character.
  have format : cString defaultDateTime =
      ['%', 'Y', '-', '%', 'm', '-', '%', 'd', ' ', '%', 'H', ':', '%', 'M', ':', '%', 'S'] := by
    decide
  rw [format]
  simp [Libc.strftimeText, conversion, dateParts]

/-- The date always fits into the buffer of `DateTimeFormatItem::format`. -/
theorem Tm.InRange.fits {tm : Tm} (range : tm.InRange) :
    (written dateParts tm).length < dateTimeBuffer := by
  -- 11 characters for the year, 10 for the other numbers and 5 between them, which is less than 64.
  have two : ∀ n, n < 100 → (twoDigits n).length ≤ 2 := by
    intro n small
    unfold twoDigits
    have digits : ∀ k, 0 < k → ((Nat.toDigits 10 n).length ≤ k ↔ n < 10 ^ k) := fun k =>
      Nat.length_toDigits_le_iff (by decide)
    split
    · have one := (digits 1 Nat.one_pos).mpr (by omega)
      exact Nat.succ_le_succ one
    · exact (digits 2 Nat.two_pos).mpr (by omega)
  have year : (decimal (tm.year + 1900)).length ≤ 11 := by
    have bounds := range.year
    have ten : (Nat.toDigits 10 (tm.year + 1900).natAbs).length ≤ 10 :=
      (Nat.length_toDigits_le_iff (by decide) (by decide)).mpr (by omega)
    unfold decimal
    split
    · exact Nat.succ_le_succ ten
    · omega
  have sec := two tm.sec (by have := range.sec; omega)
  have min := two tm.min (by have := range.min; omega)
  have hour := two tm.hour (by have := range.hour; omega)
  have mday := two tm.mday (by have := range.mday; omega)
  have mon := two (tm.mon + 1) (by have := range.mon; omega)
  simp only [dateParts, written_cons, written_nil, List.length_append, List.length_cons,
    List.length_nil, dateTimeBuffer]
  omega

/-- A logger with the default pattern prints every event whose date there is. -/
theorem format_default {libc : Libc} {tm : Tm} {event : LogEvent}
    (here : libc.localtime event.time = some tm) (range : tm.InRange) (logger : Logger)
    (level : LogLevel) :
    (LogFormatter.init defaultPattern).format libc logger level event =
      some (printed tm logger level event).text := by
  rw [init_defaultPattern]
  simp [LogFormatter.format, formatItems, FormatItem.format, here, strftimeText_default, range.fits,
    Printed.text, lineParts, printed]

/-- The local time is determined by its date in the default format. -/
theorem date_determines : Determines (fun _ => True) dateParts := by
  have digits : ∀ (n : Nat) (ch : Char), ¬ ch.isDigit → ch ∉ twoDigits n := fun n ch no member =>
    no (mem_twoDigits member)
  -- A year may begin with a sign, so the day and the month are split off from the back.
  have month : Determines (fun _ : Tm => True) [fun tm => decimal (tm.year + 1900),
      fun _ => ['-'], fun tm => twoDigits (tm.mon + 1)] :=
    .split_last '-' (fun tm _ => by simpa using digits _ _ (by decide)) .single .single
  have day : Determines (fun _ : Tm => True) ([fun tm => decimal (tm.year + 1900), fun _ => ['-'],
      fun tm => twoDigits (tm.mon + 1)] ++ (fun _ => ['-']) :: [fun tm => twoDigits tm.mday]) :=
    .split_last '-' (fun tm _ => by simpa using digits _ _ (by decide)) month .single
  have minute : Determines (fun _ : Tm => True) [fun tm => twoDigits tm.min,
      fun _ => [':'], fun tm => twoDigits tm.sec] :=
    .split_first ':' (fun tm _ => by simpa using digits _ _ (by decide)) .single .single
  have hour : Determines (fun _ : Tm => True) ([fun tm => twoDigits tm.hour] ++
      (fun _ => [':']) :: _) :=
    .split_first ':' (fun tm _ => by simpa using digits _ _ (by decide)) .single minute
  refine Determines.split_last ' ' (fun tm _ => ?_) day hour
  simp [digits]

/-- Different local times have different dates. -/
theorem date_inj {tm other : Tm} (same : written dateParts tm = written dateParts other) :
    tm = other := by
  -- The separators take the date apart, and each of its numbers can be read back.
  have parts := date_determines tm other trivial trivial same
  simp only [dateParts, List.forall_mem_cons] at parts
  obtain ⟨year, _, mon, _, mday, _, hour, _, min, _, sec, _⟩ := parts
  obtain ⟨sec₁, min₁, hour₁, mday₁, mon₁, year₁⟩ := tm
  obtain ⟨sec₂, min₂, hour₂, mday₂, mon₂, year₂⟩ := other
  obtain rfl := twoDigits_inj sec
  obtain rfl := twoDigits_inj min
  obtain rfl := twoDigits_inj hour
  obtain rfl := twoDigits_inj mday
  obtain rfl := Nat.succ.inj (twoDigits_inj mon)
  have years : year₁ + 1900 = year₂ + 1900 := decimal_inj year
  obtain rfl : year₁ = year₂ := by omega
  rfl

/-- A date consists of digits and of three other characters. -/
theorem mem_date {tm : Tm} {ch : Char} (member : ch ∈ written dateParts tm) :
    ch.isDigit ∨ ch = '-' ∨ ch = ' ' ∨ ch = ':' := by
  -- By the part of the date that the character stands in.
  simp only [dateParts, written_cons, written_nil, List.mem_append, List.mem_singleton,
    List.append_nil] at member
  rcases member with year | rfl | two | rfl | two | rfl | two | rfl | two | rfl | two
  · rcases mem_decimal year with rfl | digit
    · simp
    · exact .inl digit
  all_goals first | exact .inl (mem_twoDigits two) | simp

namespace Printed

/-- What a line may show without looking like something else. -/
structure Clean (p : Printed) : Prop where
  name : '\t' ∉ p.name ∧ '\n' ∉ p.name
  file : '\t' ∉ p.file ∧ '\n' ∉ p.file
  content : '\n' ∉ p.content

variable {p other : Printed}

/-- The columns of a line are determined by the line. -/
theorem line_determines : Determines Clean lineParts := by
  -- The columns are split off one after the other, each at the tab behind it.
  have tab : ∀ n : Int, '\t' ∉ decimal n := fun _ => mt mem_decimal (by decide)
  have colon : ∀ n : Int, ':' ∉ decimal n := fun _ => mt mem_decimal (by decide)
  have date : ∀ tm : Tm, '\t' ∉ written dateParts tm := fun _ => mt mem_date (by decide)
  have level : ∀ level : LogLevel, '\t' ∉ level.toText := fun level => by cases level <;> decide
  have bracketed : ∀ part : Printed → Text,
      Determines Clean (((fun _ => ['[']) :: [part]) ++ [fun _ => [']']]) := fun _ =>
    .fixed_last (fun _ _ => rfl) (.fixed_first (fun _ _ => rfl) .single)
  -- The line number has no colon, whatever the name of the file is.
  have place : Determines Clean ([Printed.file] ++ (fun _ => [':']) ::
      [fun p => decimal p.line.toInt]) :=
    .split_last ':' (fun p _ => by simpa using colon p.line.toInt) .single .single
  -- The message is the last column, so it may contain anything.
  have sixth := place.split_first '\t' (fun p clean => by simp [clean.file.1, tab])
    (.single : Determines Clean [Printed.content])
  have fifth := (bracketed Printed.name).split_first '\t'
    (fun p clean => by simp [clean.name.1]) sixth
  have fourth := (bracketed fun p => p.level.toText).split_first '\t'
    (fun p _ => by simp [level]) fifth
  have third := Determines.single.split_first '\t' (fun p _ => by
    simpa using tab p.fiberId.toNat) fourth
  have second := Determines.single.split_first '\t' (fun p _ => by
    simpa using tab p.threadId.toNat) third
  exact Determines.single.split_first '\t' (fun p _ => by simpa using date p.tm) second

/-- A clean line ends at its first line feed. -/
theorem Clean.not_mem (clean : p.Clean) : '\n' ∉ written lineParts p := by
  -- The columns that the program writes itself have no line feed, and the others are clean.
  have number : ∀ n : Int, '\n' ∉ decimal n := fun _ => mt mem_decimal (by decide)
  have date : ∀ tm : Tm, '\n' ∉ written dateParts tm := fun _ => mt mem_date (by decide)
  have level : ∀ level : LogLevel, '\n' ∉ level.toText := fun level => by cases level <;> decide
  simp [lineParts, number, date, level, clean.name.2, clean.file.2, clean.content]

/-- Levels are printed differently. -/
theorem toText_inj {level other : LogLevel} (same : level.toText = other.toText) :
    level = other := by
  cases level <;> cases other <;> first | rfl | (revert same; decide)

/-- A clean line says everything that it was printed from. -/
theorem text_inj (clean : p.Clean) (cleanOther : other.Clean) (same : p.text = other.text) :
    p = other := by
  -- First the line is taken apart into its columns, and then each column is read back.
  have parts := line_determines p other clean cleanOther (List.append_cancel_right same)
  simp only [lineParts, List.forall_mem_cons] at parts
  obtain ⟨date, _, threadId, _, fiberId, _, _, level, _, _, _, name, _, _, file, _, line, _,
    content, _⟩ := parts
  cases p
  cases other
  obtain rfl := date_inj date
  obtain rfl := UInt32.toNat_inj.mp (Int.ofNat.inj (decimal_inj threadId))
  obtain rfl := UInt32.toNat_inj.mp (Int.ofNat.inj (decimal_inj fiberId))
  obtain rfl := toText_inj level
  obtain rfl := Int32.toInt_inj.mp (decimal_inj line)
  obtain rfl : _ = _ := name
  obtain rfl : _ = _ := file
  obtain rfl : _ = _ := content
  rfl

/-- A log of clean lines says everything that it was printed from. -/
theorem log_inj {ps others : List Printed} (clean : ∀ p ∈ ps, p.Clean)
    (cleanOthers : ∀ p ∈ others, p.Clean)
    (same : ps.flatMap Printed.text = others.flatMap Printed.text) : ps = others := by
  -- Every clean line ends with its only line feed.
  have code : UniquelyDecodable { word | ∃ p : Printed, p.Clean ∧ word = p.text } :=
    uniquelyDecodable_of_terminated fun word ⟨p, clean, shape⟩ => ⟨_, clean.not_mem, shape⟩
  have words := code (ps.map Printed.text) (others.map Printed.text)
    (fun word member => by
      obtain ⟨p, inside, rfl⟩ := List.mem_map.mp member
      exact ⟨p, clean p inside, rfl⟩)
    (fun word member => by
      obtain ⟨p, inside, rfl⟩ := List.mem_map.mp member
      exact ⟨p, cleanOthers p inside, rfl⟩)
    (by rwa [← List.flatMap_def, ← List.flatMap_def])
  exact map_inj_of_mem (fun p member other here => text_inj (clean p member)
    (cleanOthers other here)) words

/-- With line feeds in it, a message can look like any lines that might have followed. -/
theorem log_forged (p : Printed) {qs : List Printed} (some_ : qs ≠ []) :
    ∃ content, { p with content := content }.text = p.text ++ qs.flatMap Printed.text := by
  -- Only the last line feed is not written by the message itself.
  obtain ⟨before, q, rfl⟩ := (List.eq_nil_or_concat qs).resolve_left some_
  refine ⟨p.content ++ '\n' :: (before.flatMap Printed.text ++ written lineParts q), ?_⟩
  simp [text, lineParts]

end Printed

end SimpleSrv.Tiga
