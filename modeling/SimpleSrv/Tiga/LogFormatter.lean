import Mathlib.Data.List.Basic

/-! The log formatter: how a pattern becomes items, and how the items print an event. -/

namespace SimpleSrv.Tiga

/-- The characters of a `std::string`. -/
abbrev Text := List Char

/-- `substr`, as far as the position is within the text. -/
def substr (text : Text) (pos count : Nat) : Text := (text.drop pos).take count

/-- `LogLevel::Level`. -/
inductive LogLevel where
  | unknow | debug | info | warn | error | fatal
  deriving DecidableEq, Repr

/-- `LogLevel::ToString`. -/
def LogLevel.toText : LogLevel → Text
  | .debug => "DEBUG".toList
  | .info => "INFO".toList
  | .warn => "WARN".toList
  | .error => "ERROR".toList
  | .fatal => "FATAL".toList
  | .unknow => "UNKNOW".toList

/-- `LogEvent`, with the content that has been written to its stream. -/
structure LogEvent where
  file : Text
  line : Int32
  elapse : UInt32
  threadId : UInt32
  fiberId : UInt32
  time : UInt64
  content : Text

/-- The name of a `Logger`, which is all that its formatter reads. -/
structure Logger where
  name : Text

/-- The fields of a `struct tm` that the conversions below read, within their ranges. -/
structure Tm where
  sec : Nat
  min : Nat
  hour : Nat
  mday : Nat
  mon : Nat
  year : Int

/-- What depends on the time zone and on the locale. -/
structure Libc where
  /-- `localtime_r`, which fails where the year does not fit. -/
  localtime : UInt64 → Option Tm
  /-- What `strftime` writes for a format that begins with any other conversion, if defined. -/
  strftime : Tm → Text → Option Text

/-- A number in decimal digits. -/
def decimal (n : Int) : Text :=
  if n < 0 then '-' :: Nat.toDigits 10 n.natAbs else Nat.toDigits 10 n.natAbs

/-- A number in at least two digits. -/
def twoDigits (n : Nat) : Text := if n < 10 then '0' :: Nat.toDigits 10 n else Nat.toDigits 10 n

/-- The conversions of `strftime` that have a meaning of their own here. -/
def conversion (tm : Tm) : Char → Option Text
  | '%' => some ['%']
  | 'Y' => some (decimal (tm.year + 1900))
  | 'm' => some (twoDigits (tm.mon + 1))
  | 'd' => some (twoDigits tm.mday)
  | 'H' => some (twoDigits tm.hour)
  | 'M' => some (twoDigits tm.min)
  | 'S' => some (twoDigits tm.sec)
  | _ => none

/-- The text that `strftime` would write if the buffer were large enough. -/
def Libc.strftimeText (libc : Libc) (tm : Tm) : Text → Option Text
  | [] => some []
  | '%' :: ch :: rest =>
    match conversion tm ch with
    | some text => (strftimeText libc tm rest).map (text ++ ·)
    | none => libc.strftime tm ('%' :: ch :: rest)
  | ['%'] => libc.strftime tm ['%']
  | ch :: rest => (strftimeText libc tm rest).map (ch :: ·)

/-- `c_str`, up to the first NUL, where a C function stops reading. -/
def cString (text : Text) : Text := text.takeWhile fun ch => ch.toNat ≠ 0

/-- The size of the buffer in `DateTimeFormatItem::format`. -/
def dateTimeBuffer : Nat := 64

/-- `LogFormatter::FormatItem`, with the string that an item has kept of its argument. -/
inductive FormatItem where
  | message | level | elapse | name | threadId | newLine
  | dateTime (format : Text)
  | filename | line | tab | fiberId
  | string (text : Text)
  deriving DecidableEq, Repr

/-- The format that `DateTimeFormatItem` falls back to. -/
def defaultDateTime : Text := "%Y-%m-%d %H:%M:%S".toList

/-- The constructor of `DateTimeFormatItem`. -/
def dateTimeItem (format : Text) : FormatItem :=
  .dateTime (if format = [] then defaultDateTime else format)

/--
`FormatItem::format`, as the text that it writes.

Nothing is returned where the buffer of a date holds no defined text.
-/
def FormatItem.format (libc : Libc) (logger : Logger) (level : LogLevel) (event : LogEvent) :
    FormatItem → Option Text
  | .message => some event.content
  | .level => some level.toText
  | .elapse => some (decimal event.elapse.toNat)
  | .name => some logger.name
  | .threadId => some (decimal event.threadId.toNat)
  | .newLine => some ['\n']
  | .dateTime format =>
    (libc.localtime event.time).bind fun tm =>
      (libc.strftimeText tm (cString format)).bind fun text =>
        if text.length < dateTimeBuffer then some text else none
  | .filename => some event.file
  | .line => some (decimal event.line.toInt)
  | .tab => some ['\t']
  | .fiberId => some (decimal event.fiberId.toNat)
  | .string text => some text

/-- `LogFormatter`, with the items of its pattern. -/
structure LogFormatter where
  items : List FormatItem

/-- The texts of all items behind each other. -/
def formatItems (libc : Libc) (logger : Logger) (level : LogLevel) (event : LogEvent) :
    List FormatItem → Option Text
  | [] => some []
  | item :: rest =>
    (item.format libc logger level event).bind fun first =>
      (formatItems libc logger level event rest).map (first ++ ·)

/-- `LogFormatter::format`. -/
def LogFormatter.format (formatter : LogFormatter) (libc : Libc) (logger : Logger)
    (level : LogLevel) (event : LogEvent) : Option Text :=
  formatItems libc logger level event formatter.items

/-- An element of `vec` in `LogFormatter::init`, its type being 0 for a text and 1 for an item. -/
structure Entry where
  str : Text
  fmt : Text
  type : Nat
  deriving DecidableEq, Repr

/-- The variables of the inner loop in `LogFormatter::init`. -/
structure Directive where
  n : Nat
  fmtStatus : Bool
  fmtBegin : Nat
  str : Text
  fmt : Text

/-- The inner loop of `LogFormatter::init`, which reads the directive at `i`. -/
def directiveLoop (pattern : Text) (i : Nat) (s : Directive) : Directive :=
  if inside : s.n < pattern.length then
    let ch := pattern[s.n]
    if s.fmtStatus = false ∧ (¬ ch.isAlpha ∧ ch ≠ '{' ∧ ch ≠ '}') then
      { s with str := substr pattern (i + 1) (s.n - i - 1) }
    else if s.fmtStatus = false ∧ ch = '{' then
      directiveLoop pattern i
        { s with
          str := substr pattern (i + 1) (s.n - i - 1)
          fmtStatus := true
          fmtBegin := s.n
          n := s.n + 1 }
    else if s.fmtStatus = true ∧ ch = '}' then
      { s with
        fmt := substr pattern (s.fmtBegin + 1) (s.n - s.fmtBegin - 1)
        fmtStatus := false
        n := s.n + 1 }
    else
      -- The key ends with the pattern, unless it has ended at a brace.
      let str :=
        if s.n + 1 = pattern.length ∧ s.str = [] then substr pattern (i + 1) pattern.length
        else s.str
      directiveLoop pattern i { s with n := s.n + 1, str := str }
  else s
termination_by pattern.length - s.n

/-- The inner loop never moves its cursor back. -/
theorem directiveLoop_n (pattern : Text) (i : Nat) (s : Directive) :
    s.n ≤ (directiveLoop pattern i s).n := by
  -- The cases are those of the loop, which goes on in two of them.
  fun_induction directiveLoop pattern i s with
  | case1 => exact Nat.le_refl _
  | case2 s inside ch _ _ ih => exact Nat.le_trans (Nat.le_succ _) ih
  | case3 => exact Nat.le_succ _
  | case4 s inside ch _ _ _ str ih => exact Nat.le_trans (Nat.le_succ _) ih
  | case5 => exact Nat.le_refl _

/-- The text that stands for a directive without an end. -/
def patternError : Text := "<<pattern_error>>".toList

/-- Push the literal text that has been collected, if there is any. -/
def pushText (vec : List Entry) (nstr : Text) : List Entry :=
  if nstr = [] then vec else vec ++ [⟨nstr, [], 0⟩]

/-- The variables of the inner loop before its first round, for the directive at `i`. -/
def Directive.start (i : Nat) : Directive :=
  { n := i + 1, fmtStatus := false, fmtBegin := 0, str := [], fmt := [] }

/-- The outer loop of `LogFormatter::init`, with what follows it up to the last push. -/
def initLoop (pattern : Text) (i : Nat) (nstr : Text) (vec : List Entry) : List Entry :=
  if inside : i < pattern.length then
    if pattern[i] ≠ '%' then initLoop pattern (i + 1) (nstr ++ [pattern[i]]) vec
    else if pattern[i + 1]? = some '%' then initLoop pattern (i + 1) (nstr ++ ['%']) vec
    else
      let s := directiveLoop pattern i (.start i)
      if s.fmtStatus = false then
        -- The assignment of `n - 1` to `i` is undone by the increment that follows.
        initLoop pattern (s.n - 1 + 1) [] (pushText vec nstr ++ [⟨s.str, s.fmt, 1⟩])
      else initLoop pattern (i + 1) nstr (vec ++ [⟨patternError, s.fmt, 0⟩])
  else pushText vec nstr
termination_by pattern.length - i
decreasing_by
  · omega
  · omega
  · have ahead : i + 1 ≤ (directiveLoop pattern i (.start i)).n :=
      directiveLoop_n pattern i (.start i)
    omega
  · omega

/-- `s_format_items`, with the constructor of each item. -/
def formatItemTable : List (Text × (Text → FormatItem)) :=
  [(['m'], fun _ => .message), (['p'], fun _ => .level), (['r'], fun _ => .elapse),
    (['c'], fun _ => .name), (['t'], fun _ => .threadId), (['n'], fun _ => .newLine),
    (['d'], dateTimeItem), (['f'], fun _ => .filename), (['l'], fun _ => .line),
    (['T'], fun _ => .tab), (['F'], fun _ => .fiberId)]

/-- The text that stands for an unknown key. -/
def errorFormat (key : Text) : Text := "<<error_format %".toList ++ key ++ ">>".toList

/-- The item that an element of `vec` becomes. -/
def Entry.item (entry : Entry) : FormatItem :=
  if entry.type = 0 then .string entry.str
  else
    match formatItemTable.lookup entry.str with
    | none => .string (errorFormat entry.str)
    | some construct => construct entry.fmt

/-- `LogFormatter::init`. -/
def LogFormatter.init (pattern : Text) : LogFormatter :=
  ⟨(initLoop pattern 0 [] []).map Entry.item⟩

end SimpleSrv.Tiga
