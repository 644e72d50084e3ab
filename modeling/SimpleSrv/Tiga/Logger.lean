import Mathlib.Logic.Relation
import SimpleSrv.Lib.Run
import SimpleSrv.Tiga.LogLine

/-! The loggers and their appenders, over every sequence of calls. -/

namespace SimpleSrv.Tiga

/-- The number of a level in `LogLevel::Level`. -/
def LogLevel.value : LogLevel → Nat
  | .unknow => 0
  | .debug => 1
  | .info => 2
  | .warn => 3
  | .error => 4
  | .fatal => 5

/-- A `std::ofstream`. -/
structure OFStream where
  isOpen : Bool := false
  /-- Neither `failbit` nor `badbit` is set. -/
  good : Bool := true
  /-- What the stream has taken, whatever has become of that in its buffer or on the disk. -/
  text : Text := []
  /-- How many writes have set the stream to `badbit`. -/
  refused : Nat := 0
  /-- How many writes have found a stream that was not good any more. -/
  lost : Nat := 0

namespace OFStream

/-- `open`, which fails on a stream that is open already. -/
def openFile (s : OFStream) (opened : Bool) : OFStream :=
  if s.isOpen = false ∧ opened = true then { s with isOpen := true, good := true }
  else { s with good := false }

/-- `close`, which fails on a stream that is not open, or if its buffer cannot be flushed. -/
def close (s : OFStream) (flushed : Bool) : OFStream :=
  { s with isOpen := false, good := s.good && s.isOpen && flushed }

/-- `operator<<`, where the stream may only take some of the characters. -/
def write (s : OFStream) (text : Text) (room : Option Nat) : OFStream :=
  if s.good = true then
    if s.isOpen = true ∧ text.length ≤ room.getD text.length then { s with text := s.text ++ text }
    else
      { s with
        good := false
        text := if s.isOpen then s.text ++ text.take (room.getD text.length) else s.text
        refused := s.refused + 1 }
  else { s with lost := s.lost + 1 }

/-- `FileLogAppender::reopen`, with what it returns. -/
def reopen (s : OFStream) (flushed opened : Bool) : OFStream × Bool :=
  let closed := if s.good then s.close flushed else s
  let result := closed.openFile opened
  (result, result.good)

end OFStream

/-- What an appender has been given to print. -/
structure Delivery where
  logger : Logger
  level : LogLevel
  event : LogEvent

/-- `LogAppender`, which is a `StdoutLogAppender` where it has no stream of its own. -/
structure LogAppender where
  level : LogLevel := .debug
  formatter : Option LogFormatter := none
  stream : Option OFStream
  /-- What has passed both thresholds. -/
  delivered : List Delivery := []

/--
`StdoutLogAppender::log` and `FileLogAppender::log`, with what becomes of `std::cout`.

Nothing is defined where there is no formatter, or where the formatter has no defined text.
-/
def LogAppender.log (libc : Libc) (appender : LogAppender) (d : Delivery) (room : Option Nat)
    (cout : OFStream) : Option (LogAppender × OFStream) :=
  if appender.level.value ≤ d.level.value then
    appender.formatter.bind fun formatter =>
      (formatter.format libc d.logger d.level d.event).map fun text =>
        let logged := { appender with delivered := appender.delivered ++ [d] }
        match appender.stream with
        | none => (logged, cout.write text room)
        | some stream => ({ logged with stream := some (stream.write text room) }, cout)
  else some (appender, cout)

/-- `Logger`, with its appenders by their numbers. -/
structure LoggerObject extends Logger where
  level : LogLevel := .debug
  appenders : List Nat := []
  formatter : LogFormatter := .init defaultPattern

/-- All loggers, all appenders and `std::cout`. -/
structure Logging where
  loggers : List LoggerObject
  appenders : List LogAppender
  cout : OFStream

/-- What `LoggerManager::LoggerManager` sets up, which `getLogger` returns for every name. -/
def Logging.start : Logging where
  loggers := [{ name := "root".toList, appenders := [0] }]
  appenders := [{ formatter := some (.init defaultPattern), stream := none }]
  cout := { isOpen := true }

/-- The calls of the interface, with the answers of the file system. -/
inductive LogOp where
  /-- `Logger::Logger`. -/
  | logger (name : Text)
  /-- The constructor of `StdoutLogAppender`. -/
  | stdoutAppender
  /-- `FileLogAppender::FileLogAppender`. -/
  | fileAppender (opened : Bool)
  /-- `LogAppender::setFormatter`, with a formatter. A null pointer as its argument is left out. -/
  | setFormatter (appender : Nat) (formatter : LogFormatter)
  /-- `LogAppender::setLevel`. -/
  | setAppenderLevel (appender : Nat) (level : LogLevel)
  /-- `FileLogAppender::reopen`. -/
  | reopen (appender : Nat) (flushed opened : Bool)
  | addAppender (logger appender : Nat)
  | delAppender (logger appender : Nat)
  /-- `Logger::setLevel`. -/
  | setLevel (logger : Nat) (level : LogLevel)
  /-- `Logger::log`, with how much the stream of each appender in turn takes, if it is short. -/
  | log (logger : Nat) (level : LogLevel) (event : LogEvent) (rooms : List (Option Nat))

namespace Logging

/-- The appender with this number logs, where there is one. -/
def append (libc : Libc) (d : Delivery) (room : Option Nat) (s : Logging) (k : Nat) :
    Option Logging :=
  s.appenders[k]?.bind fun appender =>
    (appender.log libc d room s.cout).map fun (logged, cout) =>
      { s with appenders := s.appenders.set k logged, cout := cout }

/-- The loop of `Logger::log`. -/
def appendAll (libc : Libc) (d : Delivery) : List Nat → List (Option Nat) → Logging → Option Logging
  | [], _, s => some s
  | k :: rest, rooms, s =>
    (s.append libc d (rooms.head?.join) k).bind (appendAll libc d rest rooms.tail)

/-- `Logger::log`. -/
def log (libc : Libc) (s : Logging) (l : Nat) (level : LogLevel) (event : LogEvent)
    (rooms : List (Option Nat)) : Option Logging :=
  s.loggers[l]?.bind fun logger =>
    if logger.level.value ≤ level.value then
      appendAll libc ⟨logger.toLogger, level, event⟩ logger.appenders rooms s
    else some s

/-- `TIGA_LOG_LEVEL`, which does not even make an event for what the logger would not print. -/
def logLevel (libc : Libc) (s : Logging) (l : Nat) (level : LogLevel) (event : LogEvent)
    (rooms : List (Option Nat)) : Option Logging :=
  s.loggers[l]?.bind fun logger =>
    if logger.level.value ≤ level.value then log libc s l level event rooms else some s

/-- `Logger::addAppender`. -/
def addAppender (s : Logging) (l k : Nat) : Option Logging :=
  s.loggers[l]?.bind fun logger =>
    s.appenders[k]?.map fun appender =>
      { s with
        loggers := s.loggers.set l { logger with appenders := logger.appenders ++ [k] }
        appenders := s.appenders.set k
          { appender with formatter := appender.formatter.or (some logger.formatter) } }

/-- `Logger::delAppender`, which takes the first occurrence off the list. -/
def delAppender (s : Logging) (l k : Nat) : Option Logging :=
  s.loggers[l]?.map fun logger =>
    { s with loggers := s.loggers.set l { logger with appenders := logger.appenders.erase k } }

/-- One call of the interface. -/
def step (libc : Libc) (s : Logging) : LogOp → Option Logging
  | .logger name => some { s with loggers := s.loggers ++ [{ name := name }] }
  | .stdoutAppender => some { s with appenders := s.appenders ++ [{ stream := none }] }
  | .fileAppender opened =>
    some { s with
      appenders := s.appenders ++ [{ stream := some (OFStream.reopen {} true opened).1 }] }
  | .setFormatter k formatter =>
    s.appenders[k]?.map fun appender =>
      { s with appenders := s.appenders.set k { appender with formatter := some formatter } }
  | .setAppenderLevel k level =>
    s.appenders[k]?.map fun appender =>
      { s with appenders := s.appenders.set k { appender with level := level } }
  | .reopen k flushed opened =>
    s.appenders[k]?.bind fun appender =>
      appender.stream.map fun stream =>
        { s with
          appenders := s.appenders.set k
            { appender with stream := some (stream.reopen flushed opened).1 } }
  | .addAppender l k => s.addAppender l k
  | .delAppender l k => s.delAppender l k
  | .setLevel l level =>
    s.loggers[l]?.map fun logger =>
      { s with loggers := s.loggers.set l { logger with level := level } }
  | .log l level event rooms => s.log libc l level event rooms

variable {libc : Libc} {s t : Logging} {op : LogOp} {d : Delivery}

/-- What one call makes of an appender that exists already. -/
inductive Change (libc : Libc) (s : Logging) (op : LogOp) (k : Nat) :
    LogAppender → LogAppender → Prop
  | formatter {a : LogAppender} (formatter : LogFormatter)
      (called : op = .setFormatter k formatter) :
      Change libc s op k a { a with formatter := some formatter }
  | level {a : LogAppender} (level : LogLevel) : Change libc s op k a { a with level := level }
  | reopened {a : LogAppender} {stream : OFStream} (own : a.stream = some stream)
      (flushed opened : Bool) :
      Change libc s op k a { a with stream := some (stream.reopen flushed opened).1 }
  | adopted {a : LogAppender} {logger : LoggerObject} (here : logger ∈ s.loggers) :
      Change libc s op k a { a with formatter := a.formatter.or (some logger.formatter) }
  | logged {a b : LogAppender} {d : Delivery} {room : Option Nat} {cout after : OFStream}
      (wrote : a.log libc d room cout = some (b, after)) : Change libc s op k a b

/-- The loop of `Logger::log` changes appenders by their own `log`, and nothing else. -/
theorem appendAll_change {ks : List Nat} {rooms : List (Option Nat)}
    (ran : appendAll libc d ks rooms s = some t) (u : Logging) (op : LogOp) :
    t.loggers = s.loggers ∧ t.appenders.length = s.appenders.length ∧
      ∀ (k : Nat) (b : LogAppender), t.appenders[k]? = some b →
        ∃ a, s.appenders[k]? = some a ∧ Relation.ReflTransGen (Change libc u op k) a b := by
  -- The induction follows the loop, each of whose rounds changes one appender.
  induction ks generalizing s rooms with
  | nil =>
    obtain rfl := Option.some.inj ran
    exact ⟨rfl, rfl, fun k b at_ => ⟨b, at_, .refl⟩⟩
  | cons first rest ih =>
    obtain ⟨v, appended, ran⟩ := Option.bind_eq_some_iff.mp ran
    obtain ⟨appender, at_, appended⟩ := Option.bind_eq_some_iff.mp appended
    obtain ⟨⟨logged, cout⟩, wrote, rfl⟩ := Option.map_eq_some_iff.mp appended
    obtain ⟨loggers, count, changes⟩ := ih ran
    refine ⟨loggers, count.trans List.length_set, fun k b here => ?_⟩
    obtain ⟨a, before, changed⟩ := changes k b here
    by_cases same : first = k
    · subst same
      have inside := (List.getElem?_eq_some_iff.mp at_).1
      rw [List.getElem?_set_self inside] at before
      obtain rfl := Option.some.inj before
      exact ⟨appender, at_, .head (.logged wrote) changed⟩
    · rw [List.getElem?_set_ne same] at before
      exact ⟨a, before, changed⟩

/-- What a constructor makes of an appender. -/
inductive New : LogAppender → Prop
  | stdout : New { stream := none }
  | file (opened : Bool) : New { stream := some (OFStream.reopen {} true opened).1 }

/-- What one call of the interface does to all loggers and appenders. -/
structure Stepped (libc : Libc) (s : Logging) (op : LogOp) (t : Logging) : Prop where
  kept : ∀ (k : Nat) (a : LogAppender), s.appenders[k]? = some a →
    ∃ b, t.appenders[k]? = some b ∧ Relation.ReflTransGen (Change libc s op k) a b
  new : ∀ (k : Nat) (b : LogAppender), t.appenders[k]? = some b →
    (∃ a, s.appenders[k]? = some a) ∨ New b
  formatter : ∀ logger ∈ t.loggers,
    logger.formatter = .init defaultPattern ∨ ∃ old ∈ s.loggers, logger.formatter = old.formatter
  attached : ∀ logger ∈ t.loggers, ∀ k ∈ logger.appenders,
    (∃ old ∈ s.loggers, k ∈ old.appenders) ∨
      ∃ a, t.appenders[k]? = some a ∧ a.formatter ≠ none

/-- A call that only changes one appender. -/
theorem Stepped.of_change {k : Nat} {a b : LogAppender} (at_ : s.appenders[k]? = some a)
    (changed : Change libc s op k a b) :
    Stepped libc s op { s with appenders := s.appenders.set k b } where
  -- The other appenders and all the loggers stay as they are.
  kept := by
    intro j c here
    by_cases same : k = j
    · subst same
      obtain rfl := Option.some.inj (at_.symm.trans here)
      exact ⟨b, List.getElem?_set_self (List.getElem?_eq_some_iff.mp at_).1, .single changed⟩
    · exact ⟨c, (List.getElem?_set_ne same).trans here, .refl⟩
  new := by
    intro j c here
    have inside := (List.getElem?_eq_some_iff.mp here).1
    rw [List.length_set] at inside
    exact .inl ⟨_, List.getElem?_eq_getElem inside⟩
  formatter := fun logger member => .inr ⟨logger, member, rfl⟩
  attached := fun logger member _ inside => .inl ⟨logger, member, inside⟩

/-- A call that only makes an appender. -/
theorem Stepped.of_new {b : LogAppender} (new : New b) :
    Stepped libc s op { s with appenders := s.appenders ++ [b] } where
  -- The new appender comes behind the others, so these keep their places.
  kept := fun k a here => by
    have inside := (List.getElem?_eq_some_iff.mp here).1
    exact ⟨a, (List.getElem?_append_left inside).trans here, .refl⟩
  new := by
    intro k c here
    rcases Nat.lt_or_ge k s.appenders.length with inside | beyond
    · exact .inl ⟨_, List.getElem?_eq_getElem inside⟩
    · rw [List.getElem?_append_right beyond] at here
      obtain rfl := List.mem_singleton.mp (List.mem_of_getElem? here)
      exact .inr new
  formatter := fun logger member => .inr ⟨logger, member, rfl⟩
  attached := fun logger member _ inside => .inl ⟨logger, member, inside⟩

/-- A call that only changes one logger, to which it attaches nothing. -/
theorem Stepped.of_logger {l : Nat} {old logger : LoggerObject} (at_ : s.loggers[l]? = some old)
    (formatter : logger.formatter = old.formatter)
    (attached : ∀ k ∈ logger.appenders, k ∈ old.appenders) :
    Stepped libc s op { s with loggers := s.loggers.set l logger } where
  kept := fun _ a here => ⟨a, here, .refl⟩
  new := fun _ b here => .inl ⟨b, here⟩
  formatter := fun other member => by
    rcases List.mem_or_eq_of_mem_set member with before | rfl
    · exact .inr ⟨other, before, rfl⟩
    · exact .inr ⟨old, List.mem_of_getElem? at_, formatter⟩
  attached := fun other member k inside => by
    rcases List.mem_or_eq_of_mem_set member with before | rfl
    · exact .inl ⟨other, before, inside⟩
    · exact .inl ⟨old, List.mem_of_getElem? at_, attached k inside⟩

/-- Each call does what the interface says. -/
theorem step_stepped (stepped : s.step libc op = some t) : Stepped libc s op t := by
  -- A call changes one appender, makes one, or changes which appenders a logger has; logging
  -- changes several.
  cases op with
  | logger name =>
    obtain rfl := Option.some.inj stepped
    refine ⟨fun _ a here => ⟨a, here, .refl⟩, fun _ b here => .inl ⟨b, here⟩, ?_, ?_⟩
    · intro logger member
      rcases List.mem_append.mp member with before | new
      · exact .inr ⟨logger, before, rfl⟩
      · obtain rfl := List.mem_singleton.mp new
        exact .inl rfl
    · intro logger member k inside
      rcases List.mem_append.mp member with before | new
      · exact .inl ⟨logger, before, inside⟩
      · obtain rfl := List.mem_singleton.mp new
        cases inside
  | stdoutAppender =>
    obtain rfl := Option.some.inj stepped
    exact .of_new .stdout
  | fileAppender opened =>
    obtain rfl := Option.some.inj stepped
    exact .of_new (.file opened)
  | setFormatter k formatter =>
    obtain ⟨a, at_, rfl⟩ := Option.map_eq_some_iff.mp stepped
    exact .of_change at_ (.formatter formatter rfl)
  | setAppenderLevel k level =>
    obtain ⟨a, at_, rfl⟩ := Option.map_eq_some_iff.mp stepped
    exact .of_change at_ (.level level)
  | reopen k flushed opened =>
    obtain ⟨a, at_, stepped⟩ := Option.bind_eq_some_iff.mp stepped
    obtain ⟨stream, own, rfl⟩ := Option.map_eq_some_iff.mp stepped
    exact .of_change at_ (.reopened own flushed opened)
  | addAppender l k =>
    obtain ⟨logger, here, stepped⟩ := Option.bind_eq_some_iff.mp stepped
    obtain ⟨a, at_, rfl⟩ := Option.map_eq_some_iff.mp stepped
    have member := List.mem_of_getElem? here
    have appended : Stepped libc s (.addAppender l k) { s with
        appenders := s.appenders.set k
          { a with formatter := a.formatter.or (some logger.formatter) } } :=
      .of_change at_ (.adopted member)
    refine ⟨appended.kept, appended.new, ?_, ?_⟩
    · intro other inside
      rcases List.mem_or_eq_of_mem_set inside with before | rfl
      · exact .inr ⟨other, before, rfl⟩
      · exact .inr ⟨logger, member, rfl⟩
    · intro other inside j attached
      rcases List.mem_or_eq_of_mem_set inside with before | rfl
      · exact .inl ⟨other, before, attached⟩
      · rcases List.mem_append.mp attached with before | last
        · exact .inl ⟨logger, member, before⟩
        · -- What has been attached now has a formatter now.
          obtain rfl := List.mem_singleton.mp last
          refine .inr ⟨_, List.getElem?_set_self (List.getElem?_eq_some_iff.mp at_).1, ?_⟩
          cases a.formatter <;> simp
  | delAppender l k =>
    obtain ⟨logger, here, rfl⟩ := Option.map_eq_some_iff.mp stepped
    exact .of_logger here rfl fun _ => List.mem_of_mem_erase
  | setLevel l level =>
    obtain ⟨logger, here, rfl⟩ := Option.map_eq_some_iff.mp stepped
    exact .of_logger here rfl fun _ => id
  | log l level event rooms =>
    obtain ⟨logger, here, stepped⟩ := Option.bind_eq_some_iff.mp stepped
    split at stepped
    · obtain ⟨loggers, count, changes⟩ := appendAll_change stepped s (.log l level event rooms)
      refine ⟨fun k a at_ => ?_, fun k b at_ => ?_, ?_, ?_⟩
      · have inside := (List.getElem?_eq_some_iff.mp at_).1
        rw [← count] at inside
        obtain ⟨c, before, changed⟩ := changes k _ (List.getElem?_eq_getElem inside)
        obtain rfl := Option.some.inj (at_.symm.trans before)
        exact ⟨_, List.getElem?_eq_getElem inside, changed⟩
      · obtain ⟨a, before, _⟩ := changes k b at_
        exact .inl ⟨a, before⟩
      · exact loggers ▸ fun logger member => .inr ⟨logger, member, rfl⟩
      · exact loggers ▸ fun logger member k inside => .inl ⟨logger, member, inside⟩
    · obtain rfl := Option.some.inj stepped
      exact ⟨fun _ a at_ => ⟨a, at_, .refl⟩, fun _ b at_ => .inl ⟨b, at_⟩,
        fun logger member => .inr ⟨logger, member, rfl⟩,
        fun logger member _ inside => .inl ⟨logger, member, inside⟩⟩

end Logging

end SimpleSrv.Tiga
