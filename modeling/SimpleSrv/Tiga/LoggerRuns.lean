import SimpleSrv.Tiga.Logger

/-! What the loggers guarantee over every sequence of calls. -/

namespace SimpleSrv.Tiga

/-- Every call is allowed. -/
def AnyCall (_ : Logging) (_ : LogOp) : Prop := True

instance (s : Logging) (op : LogOp) : Decidable (AnyCall s op) := inferInstanceAs (Decidable True)

/-- A stream that is good is open, and one that is open but not good has refused a write. -/
structure OFStream.Sound (s : OFStream) : Prop where
  isOpen : s.good = true → s.isOpen = true
  refused : s.isOpen = true ∧ s.good = false ↔ 0 < s.refused

namespace OFStream

variable {s : OFStream}

/-- A write keeps the stream sound. -/
theorem Sound.write (sound : s.Sound) (text : Text) (room : Option Nat) :
    (s.write text room).Sound := by
  -- Only a good stream is written to, and what does not fit in turns it bad while it stays open.
  obtain ⟨isOpen, refused⟩ := sound
  unfold OFStream.write
  split
  · rename_i good
    have none : ¬ 0 < s.refused := by simp [← refused, good]
    split
    · exact ⟨isOpen, refused⟩
    · exact ⟨nofun, by simp [isOpen good]⟩
  · exact ⟨isOpen, refused⟩

/-- Reopening keeps the stream sound. -/
theorem Sound.reopen (sound : s.Sound) (flushed opened : Bool) :
    (s.reopen flushed opened).1.Sound := by
  -- By the three flags: whether the stream is good, whether it is open, and whether the system
  -- opens it.
  obtain ⟨isOpen, refused⟩ := sound
  constructor
  · cases good : s.good <;> cases held : s.isOpen <;> cases opened <;>
      simp_all [OFStream.reopen, OFStream.close, OFStream.openFile]
  · cases good : s.good <;> cases held : s.isOpen <;> cases opened <;>
      simp_all [OFStream.reopen, OFStream.close, OFStream.openFile]

/-- A file is reopened where the system opens it, as long as no write has been refused. -/
theorem Sound.reopened (sound : s.Sound) (flushed opened : Bool) :
    (s.reopen flushed opened).2 = (opened && s.refused == 0) := by
  -- `reopen` closes a good stream only, and `open` fails on one that is still open.
  obtain ⟨isOpen, refused⟩ := sound
  cases good : s.good with
  | true =>
    have none : s.refused = 0 := by simpa [good] using refused
    cases opened <;> simp [OFStream.reopen, OFStream.close, OFStream.openFile, good, none]
  | false =>
    cases held : s.isOpen with
    | true =>
      -- The stream has not been closed, so it cannot be opened.
      have some_ : s.refused ≠ 0 := by have := refused.mp ⟨held, good⟩; omega
      simp [OFStream.reopen, OFStream.openFile, good, held, some_]
    | false =>
      have none : s.refused = 0 := by simpa [held] using refused
      cases opened <;> simp [OFStream.reopen, OFStream.openFile, good, held, none]

end OFStream

/-- What `LogAppender::log` does, if it is defined. -/
theorem LogAppender.log_cases {libc : Libc} {a b : LogAppender} {d : Delivery} {room : Option Nat}
    {cout after : OFStream} (wrote : a.log libc d room cout = some (b, after)) :
    (a.level.value ≤ d.level.value ∧ ∃ formatter text, a.formatter = some formatter ∧
      formatter.format libc d.logger d.level d.event = some text ∧
      b = { a with
        stream := a.stream.map fun stream => stream.write text room
        delivered := a.delivered ++ [d] }) ∨
    (¬ a.level.value ≤ d.level.value ∧ b = a) := by
  -- The level decides; behind it, the formatter and the line have to be there.
  unfold LogAppender.log at wrote
  split at wrote
  · rename_i passes
    obtain ⟨formatter, own, wrote⟩ := Option.bind_eq_some_iff.mp wrote
    obtain ⟨text, formatted, wrote⟩ := Option.map_eq_some_iff.mp wrote
    refine .inl ⟨passes, formatter, text, own, formatted, ?_⟩
    cases stream : a.stream <;> rw [stream] at wrote <;> cases wrote <;> rfl
  · rename_i held
    cases wrote
    exact .inr ⟨held, rfl⟩

namespace Logging

variable {libc : Libc} {s t : Logging} {op : LogOp} {k : Nat} {a b : LogAppender}

/-- Every stream of an appender is sound. -/
def AppenderSound (a : LogAppender) : Prop := ∀ stream, a.stream = some stream → stream.Sound

/-- What is always true of the loggers and their appenders. -/
structure Inv (s : Logging) : Prop where
  formatter : ∀ logger ∈ s.loggers, logger.formatter = .init defaultPattern
  attached : ∀ logger ∈ s.loggers, ∀ k ∈ logger.appenders,
    ∃ a, s.appenders[k]? = some a ∧ a.formatter ≠ none
  sound : ∀ (k : Nat) (a : LogAppender), s.appenders[k]? = some a → AppenderSound a

/-- No change takes a formatter away. -/
theorem Change.formatted (changed : Change libc s op k a b) (some_ : a.formatter ≠ none) :
    b.formatter ≠ none := by
  -- Setters and adoption give a formatter, and nothing else touches it.
  cases changed with
  | formatter | adopted => simp
  | level | reopened => exact some_
  | logged wrote =>
    rcases LogAppender.log_cases wrote with ⟨_, _, _, _, _, rfl⟩ | ⟨_, rfl⟩
    · exact some_
    · exact some_

/-- No change makes a stream unsound. -/
theorem Change.sound (changed : Change libc s op k a b) (sound : AppenderSound a) :
    AppenderSound b := by
  -- Only reopening and writing touch the stream.
  cases changed with
  | formatter | adopted | level => exact sound
  | reopened own flushed opened =>
    intro stream here
    obtain rfl := Option.some.inj here
    exact (sound _ own).reopen flushed opened
  | logged wrote =>
    rcases LogAppender.log_cases wrote with ⟨_, _, text, _, _, rfl⟩ | ⟨_, rfl⟩
    · intro stream here
      obtain ⟨old, own, rfl⟩ := Option.map_eq_some_iff.mp here
      exact (sound old own).write text _
    · exact sound

/-- A new stream is sound. -/
theorem New.sound (new : New b) : AppenderSound b := by
  -- A new file appender opens its file at once, or its stream is bad without having been written
  -- to.
  intro stream here
  have fresh : OFStream.Sound { isOpen := false, good := false } := ⟨nofun, by simp⟩
  cases new with
  | stdout => cases here
  | file opened =>
    obtain rfl := Option.some.inj here
    cases opened <;> exact ⟨by decide, by decide⟩

/-- There is such an appender, and it has this property. -/
def Holds (holds : LogAppender → Prop) (k : Nat) (s : Logging) : Prop :=
  ∃ a, s.appenders[k]? = some a ∧ holds a

/-- What no change destroys outlives any number of them. -/
theorem Stepped.preserves {holds : LogAppender → Prop} (stepped : Stepped libc s op t)
    (preserved : ∀ a b, holds a → Change libc s op k a b → holds b)
    (at_ : s.appenders[k]? = some a) (before : holds a) : Holds holds k t := by
  -- By induction on the changes that one call makes to the appender.
  obtain ⟨b, here, changes⟩ := stepped.kept k a at_
  refine ⟨b, here, ?_⟩
  clear here
  induction changes with
  | refl => exact before
  | tail _ changed ih => exact preserved _ _ ih changed

/-- Each call keeps the invariant. -/
theorem Inv.step (inv : s.Inv) (called : s.step libc op = some t) : t.Inv := by
  -- The interface tells where everything in the new state comes from, and what it comes from was
  -- right.
  have stepped := step_stepped called
  constructor
  · intro logger member
    rcases stepped.formatter logger member with default_ | ⟨old, before, same⟩
    · exact default_
    · exact same.trans (inv.formatter old before)
  · intro logger member k inside
    rcases stepped.attached logger member k inside with ⟨old, before, attached⟩ | here
    · obtain ⟨a, at_, some_⟩ := inv.attached old before k attached
      exact stepped.preserves (fun _ _ some_ changed => changed.formatted some_) at_ some_
    · exact here
  · intro k b here
    rcases stepped.new k b here with ⟨a, at_⟩ | new
    · obtain ⟨c, there, sound⟩ := stepped.preserves
        (fun _ _ sound changed => changed.sound sound) at_ (inv.sound k a at_)
      obtain rfl := Option.some.inj (here.symm.trans there)
      exact sound
    · exact new.sound

/-- The root logger prints to `std::cout` with its own formatter. -/
theorem inv_start : start.Inv := by
  -- There is one logger, and one appender without a file.
  constructor
  · intro logger member
    obtain rfl := List.mem_singleton.mp member
    rfl
  · intro logger member k inside
    obtain rfl := List.mem_singleton.mp member
    obtain rfl := List.mem_singleton.mp inside
    exact ⟨_, rfl, by simp⟩
  · intro k a here stream own
    obtain rfl := List.mem_singleton.mp (List.mem_of_getElem? here)
    cases own

/-- The invariant holds wherever a run leads. -/
theorem Inv.of_run {ops : List LogOp} {permitted : Logging → LogOp → Prop}
    (run : Run (Logging.step libc) permitted start ops s) : s.Inv :=
  run.invariant inv_start fun _ _ _ inv _ called => inv.step called

/-- The time zone of Greenwich, as far as the first second of 1970. -/
def epochLibc : Libc where
  localtime time := if time = 0 then some ⟨0, 0, 0, 1, 0, 70⟩ else none
  strftime _ _ := none

/-- An event of that second. -/
def epochEvent : LogEvent := ⟨"main.cc".toList, 7, 0, 42, 0, 0, "ready\t1".toList⟩

/-- A file appender with its stream. -/
def fileAt (k : Nat) (s : Logging) : Option (LogAppender × OFStream) :=
  s.appenders[k]?.bind fun a => a.stream.map fun stream => (a, stream)

section Refusal

variable {stream : OFStream}

/-- The stream still holds the text that it held when a write was refused. -/
def Spoilt (text : Text) (a : LogAppender) : Prop :=
  ∃ stream, a.stream = some stream ∧ stream.Sound ∧ 0 < stream.refused ∧ stream.text = text

/-- No call gets a spoilt stream going again. -/
theorem Change.spoilt {text : Text} (changed : Change libc s op k a b) (spoilt : Spoilt text a) :
    Spoilt text b := by
  -- A spoilt stream is open and not good, and both stay so.
  obtain ⟨stream, own, sound, refused, same⟩ := spoilt
  obtain ⟨isOpen, bad⟩ := sound.refused.mpr refused
  cases changed with
  | formatter | adopted | level => exact ⟨stream, own, sound, refused, same⟩
  | reopened here flushed opened =>
    obtain rfl := Option.some.inj (own.symm.trans here)
    refine ⟨_, rfl, sound.reopen flushed opened, ?_⟩
    -- It is not closed since it is not good, and not opened since it is open.
    simp [OFStream.reopen, OFStream.openFile, bad, isOpen, refused, same]
  | logged wrote =>
    rcases LogAppender.log_cases wrote with ⟨_, _, line, _, _, rfl⟩ | ⟨_, rfl⟩
    · refine ⟨_, congrArg (Option.map _) own, sound.write line _, ?_⟩
      simp [OFStream.write, bad, refused, same]
    · exact ⟨stream, own, sound, refused, same⟩

/-- Which calls of `FileLogAppender::reopen` succeed, and what a refused write means for them. -/
structure RefusalFinal (libc : Libc) (s : Logging) (k : Nat) (stream : OFStream) : Prop where
  /-- A file is reopened where the system opens it, as long as no write has been refused. -/
  reopens : ∀ flushed opened, (stream.reopen flushed opened).2 = (opened && stream.refused == 0)
  /-- After a refused write, the stream never takes anything and is never reopened again. -/
  final : 0 < stream.refused → ∀ rest t, Run (step libc) AnyCall s rest t →
    ∃ b last, t.appenders[k]? = some b ∧ b.stream = some last ∧ last.text = stream.text ∧
      ∀ flushed opened, (last.reopen flushed opened).2 = false

/--
Once its stream has refused a write, it takes nothing more from the appender: `reopen` does not
close what is not good, and so it cannot open it. Until then, the system alone decides.
-/
theorem refusal_final {ops : List LogOp} (run : Run (step libc) AnyCall start ops s)
    (at_ : s.appenders[k]? = some a) (own : a.stream = some stream) :
    RefusalFinal libc s k stream where
  reopens := ((Inv.of_run run).sound k a at_ stream own).reopened
  final := by
    intro refused rest t more
    have sound := (Inv.of_run run).sound k a at_ stream own
    -- The induction over the further calls carries the text along.
    have now : Holds (Spoilt stream.text) k s := ⟨a, at_, stream, own, sound, refused, rfl⟩
    have kept : Holds (Spoilt stream.text) k t :=
      more.invariant now fun _ _ _ ⟨_, at_, spoilt⟩ _ called =>
        (step_stepped called).preserves (fun _ _ spoilt changed => changed.spoilt spoilt) at_ spoilt
    obtain ⟨b, here, last, own, lastSound, refused, same⟩ := kept
    refine ⟨b, last, here, own, same, fun flushed opened => ?_⟩
    have positive : last.refused ≠ 0 := Nat.pos_iff_ne_zero.mp refused
    simp [lastSound.reopened, positive]

/-- The stream takes three characters only. -/
def shortCalls : List LogOp :=
  [.fileAppender true, .addAppender 0 1, .log 0 .info epochEvent [none, some 3],
    .reopen 1 true true, .log 0 .info epochEvent []]

/-- Three characters are all that such a stream ever takes. -/
theorem refusal_final_three : ∃ s a stream, s.appenders[1]? = some a ∧ a.stream = some stream ∧
    stream.text = ['1', '9', '7'] ∧ 0 < stream.refused ∧ stream.lost = 1 ∧
      RefusalFinal epochLibc s 1 stream := by
  have ran : ((execute (step epochLibc) AnyCall start shortCalls).bind (fileAt 1)).map
      (fun file => (file.2.text, file.2.refused, file.2.lost)) = some (['1', '9', '7'], 1, 1) := by
    decide +kernel
  obtain ⟨⟨a, stream⟩, ran, saw⟩ := Option.map_eq_some_iff.mp ran
  simp only [Prod.mk.injEq] at saw
  obtain ⟨s, ran, found⟩ := Option.bind_eq_some_iff.mp ran
  obtain ⟨_, at_, found⟩ := Option.bind_eq_some_iff.mp found
  obtain ⟨_, own, shape⟩ := Option.map_eq_some_iff.mp found
  cases shape
  exact ⟨s, a, stream, at_, own, saw.1, by omega, saw.2.2,
    refusal_final (.of_execute ran) at_ own⟩

end Refusal

section Delivery

/-- The event can be printed wherever it passes. -/
def Ready (libc : Libc) (d : Delivery) (a : LogAppender) : Prop :=
  a.level.value ≤ d.level.value → ∀ formatter, a.formatter = some formatter →
    formatter.format libc d.logger d.level d.event ≠ none

/-- What a number of calls of `LogAppender::log` with the same event has made of an appender. -/
structure Took (libc : Libc) (d : Delivery) (count : Nat) (complete : Bool) (a b : LogAppender) :
    Prop where
  level : b.level = a.level
  formatter : b.formatter = a.formatter
  held : ¬ a.level.value ≤ d.level.value → b = a
  delivered : a.level.value ≤ d.level.value →
    b.delivered = a.delivered ++ List.replicate count d
  /-- A stream that is good takes the line as often, if there is room. -/
  text : complete = true → a.level.value ≤ d.level.value → ∀ formatter line stream,
    a.formatter = some formatter → formatter.format libc d.logger d.level d.event = some line →
    a.stream = some stream → stream.good = true → stream.isOpen = true →
    b.stream = some { stream with
      text := stream.text ++ (List.replicate count line).flatten }

variable {d : Delivery}

/-- No call has been made yet. -/
theorem Took.none (complete : Bool) (a : LogAppender) : Took libc d 0 complete a a where
  level := rfl
  formatter := rfl
  held := fun _ => rfl
  delivered := fun _ => by simp
  text := fun _ _ _ _ _ _ _ own _ _ => by simp [own]

/-- A number of calls follows a call. -/
theorem Took.next {count : Nat} {room : Option Nat} {cout after : OFStream} {complete : Bool}
    {c : LogAppender} (wrote : a.log libc d room cout = some (b, after))
    (full : complete = true → room = Option.none) (rest : Took libc d count complete b c) :
    Took libc d (count + 1) complete a c := by
  -- The call appends a line, or is held back, and the calls behind it go on from there.
  rcases LogAppender.log_cases wrote with
    ⟨passes, formatter, line, own, formatted, rfl⟩ | ⟨held, rfl⟩
  · refine ⟨rest.level, rest.formatter, fun held => absurd passes held, fun _ => ?_, ?_⟩
    · rw [rest.delivered passes, List.append_assoc, List.replicate_succ]
      rfl
    · intro all _ other text stream own' formatted' here good isOpen
      obtain rfl := Option.some.inj (own.symm.trans own')
      obtain rfl := Option.some.inj (formatted.symm.trans formatted')
      have first : stream.write line room = { stream with text := stream.text ++ line } := by
        simp [OFStream.write, good, isOpen, full all]
      have written_ : a.stream.map (fun stream => stream.write line room) =
          some { stream with text := stream.text ++ line } := by
        rw [here, Option.map_some, first]
      have last := rest.text all passes formatter line _ own formatted written_ good isOpen
      rw [last, List.replicate_succ, List.flatten_cons, ← List.append_assoc]
  · exact ⟨rest.level, rest.formatter, rest.held, fun passes => absurd passes held,
      fun _ passes => absurd passes held⟩

/-- A ready appender with a formatter can log. -/
theorem Ready.log (ready : Ready libc d a) (some_ : a.formatter ≠ none) (room : Option Nat)
    (cout : OFStream) : ∃ b after, a.log libc d room cout = some (b, after) := by
  -- Without passing the level nothing is asked of the formatter.
  unfold LogAppender.log
  split
  · rename_i passes
    obtain ⟨formatter, own⟩ := Option.ne_none_iff_exists'.mp some_
    obtain ⟨text, formatted⟩ := Option.ne_none_iff_exists'.mp (ready passes formatter own)
    rw [own, Option.bind_some, formatted, Option.map_some]
    exact ⟨_, _, rfl⟩
  · exact ⟨_, _, rfl⟩

/-- The loop of `Logger::log` gives the event to each appender as often as it is attached. -/
theorem appendAll_spec {ks : List Nat} {rooms : List (Option Nat)} {complete : Bool}
    (ready : ∀ k ∈ ks, Holds (fun a => a.formatter ≠ none ∧ Ready libc d a) k s)
    (full : complete = true → rooms = []) :
    ∃ t, appendAll libc d ks rooms s = some t ∧ t.loggers = s.loggers ∧
      ∀ (k : Nat) (a : LogAppender), s.appenders[k]? = some a →
        Holds (Took libc d (ks.count k) complete a) k t := by
  -- The induction follows the list, whose first occurrence of an appender is counted first.
  induction ks generalizing s rooms with
  | nil => exact ⟨s, rfl, rfl, fun k a at_ => ⟨a, at_, .none complete a⟩⟩
  | cons first rest ih =>
    obtain ⟨a, at_, some_, able⟩ := ready first List.mem_cons_self
    obtain ⟨b, cout, wrote⟩ := able.log some_ rooms.head?.join s.cout
    have inside := (List.getElem?_eq_some_iff.mp at_).1
    have one : Took libc d 1 false a b := .next wrote nofun (.none false b)
    have still : ∀ k ∈ rest, Holds (fun a => a.formatter ≠ none ∧ Ready libc d a) k
        { s with appenders := s.appenders.set first b, cout := cout } := by
      intro k member
      by_cases same : first = k
      · subst same
        refine ⟨b, List.getElem?_set_self inside, one.formatter ▸ some_, ?_⟩
        rw [Ready, one.level, one.formatter]
        exact able
      · obtain ⟨c, here, able⟩ := ready k (List.mem_cons_of_mem _ member)
        exact ⟨c, (List.getElem?_set_ne same).trans here, able⟩
    have all : complete = true → rooms.head?.join = none ∧ rooms.tail = [] := by
      intro complete
      simp [full complete]
    obtain ⟨t, ran, loggers, took⟩ := ih still fun complete => (all complete).2
    refine ⟨t, ?_, loggers, fun k c before => ?_⟩
    · rw [appendAll, append, at_, Option.bind_some, wrote]
      exact ran
    · by_cases same : first = k
      · subst same
        obtain rfl := Option.some.inj (at_.symm.trans before)
        obtain ⟨last, here, others⟩ := took first b (List.getElem?_set_self inside)
        rw [List.count_cons_self]
        exact ⟨last, here, .next wrote (fun complete => (all complete).1) others⟩
      · rw [List.count_cons_of_ne same]
        exact took k c ((List.getElem?_set_ne same).trans before)

/-- What a call of `Logger::log` makes of all loggers and appenders. -/
structure Delivers (libc : Libc) (s : Logging) (logger : LoggerObject) (d : Delivery)
    (rooms : List (Option Nat)) (t : Logging) : Prop where
  loggers : t.loggers = s.loggers
  /-- Each appender gets the event as often as it is attached, if it passes both thresholds. -/
  appenders : ∀ (k : Nat) (a : LogAppender), s.appenders[k]? = some a →
    Holds (Took libc d
      (if logger.level.value ≤ d.level.value then logger.appenders.count k else 0)
      rooms.isEmpty a) k t

/--
Whatever calls have been made, none of them setting a null formatter, no logger has an appender
without a formatter, and so every event that can be printed gets to each appender as often as that
is attached, if it passes both levels.
-/
theorem log_delivers {ops : List LogOp} {l : Nat} {logger : LoggerObject} {level : LogLevel}
    {event : LogEvent} {rooms : List (Option Nat)}
    (run : Run (step libc) AnyCall start ops s) (here : s.loggers[l]? = some logger)
    (ready : ∀ k ∈ logger.appenders, ∀ a, s.appenders[k]? = some a →
      Ready libc ⟨logger.toLogger, level, event⟩ a) :
    ∃ t, s.step libc (.log l level event rooms) = some t ∧
      Delivers libc s logger ⟨logger.toLogger, level, event⟩ rooms t := by
  -- Every attached appender has a formatter, and has one still when its turn comes.
  by_cases passes : logger.level.value ≤ level.value
  · have able : ∀ k ∈ logger.appenders, Holds (fun a => a.formatter ≠ none ∧
        Ready libc ⟨logger.toLogger, level, event⟩ a) k s := by
      intro k member
      obtain ⟨a, at_, some_⟩ :=
        (Inv.of_run run).attached logger (List.mem_of_getElem? here) k member
      exact ⟨a, at_, some_, ready k member a at_⟩
    obtain ⟨t, ran, loggers, took⟩ := appendAll_spec able List.isEmpty_iff.mp
    refine ⟨t, ?_, loggers, fun k a at_ => ?_⟩
    · rw [step, log, here, Option.bind_some, if_pos passes]
      exact ran
    · rw [if_pos passes]
      exact took k a at_
  · refine ⟨s, ?_, rfl, fun k a at_ => ?_⟩
    · rw [step, log, here, Option.bind_some, if_neg passes]
    · rw [if_neg passes]
      exact ⟨a, at_, .none _ a⟩

/-- A file appender is attached twice. -/
def twiceAttached : List LogOp := [.fileAppender true, .addAppender 0 1, .addAppender 0 1]

/-- The appender gets the event twice. -/
theorem log_delivers_twice : ∃ s t logger a b,
    execute (step epochLibc) AnyCall start twiceAttached = some s ∧
      s.step epochLibc (.log 0 .info epochEvent []) = some t ∧ s.loggers[0]? = some logger ∧
      s.appenders[1]? = some a ∧ t.appenders[1]? = some b ∧
      b.delivered =
        [⟨logger.toLogger, .info, epochEvent⟩, ⟨logger.toLogger, .info, epochEvent⟩] := by
  have run : Run (step epochLibc) AnyCall start twiceAttached _ := .of_execute rfl
  have range : Tm.InRange ⟨0, 0, 0, 1, 0, 70⟩ :=
    ⟨by decide, by decide, by decide, by decide, by decide, by decide⟩
  have here : epochLibc.localtime epochEvent.time = some ⟨0, 0, 0, 1, 0, 70⟩ := rfl
  -- Both appenders have adopted the default formatter, which prints every date that there is.
  have ready : ∀ a, a.formatter = some (LogFormatter.init defaultPattern) →
      Ready epochLibc ⟨⟨"root".toList⟩, .info, epochEvent⟩ a := by
    intro a default_ _ formatter own
    obtain rfl := Option.some.inj (default_.symm.trans own)
    rw [format_default here range]
    exact nofun
  obtain ⟨t, called, delivers⟩ : ∃ t, _ ∧ Delivers epochLibc _ _ _ [] t :=
    log_delivers run (l := 0) rfl fun k member a at_ => ready a (by
      rcases List.mem_cons.mp member with rfl | member
      · obtain rfl := Option.some.inj at_
        rfl
      · have last : k = 1 := by simpa using member
        subst last
        obtain rfl := Option.some.inj at_
        rfl)
  obtain ⟨b, after, took⟩ := delivers.appenders 1 _ rfl
  exact ⟨_, t, _, _, b, rfl, called, rfl, rfl, after, took.delivered (by decide)⟩

/-- The macro prints what the logger would print without it. -/
theorem logLevel_eq (l : Nat) (level : LogLevel) (event : LogEvent)
    (rooms : List (Option Nat)) :
    s.logLevel libc l level event rooms = s.log libc l level event rooms := by
  -- The macro tests the level that `log` tests again.
  unfold logLevel log
  cases s.loggers[l]? with
  | none => rfl
  | some logger =>
    simp only [Option.bind_some]
    split <;> rfl

end Delivery

section Text

/-- What a line of the default pattern shows of an event, if its date can be printed. -/
def Shown (libc : Libc) (d : Delivery) : Option Printed :=
  (libc.localtime d.event.time).map fun tm => printed tm d.logger d.level d.event

/-- Neither the names nor the message of an event look like the end of a column or line. -/
def CleanDelivery (d : Delivery) : Prop :=
  ('\t' ∉ d.logger.name ∧ '\n' ∉ d.logger.name) ∧ ('\t' ∉ d.event.file ∧ '\n' ∉ d.event.file) ∧
    '\n' ∉ d.event.content

instance (d : Delivery) : Decidable (CleanDelivery d) :=
  inferInstanceAs (Decidable ((_ ∧ _) ∧ (_ ∧ _) ∧ _))

/-- The formatter of this appender is not set by hand. -/
def KeepsFormatter (k : Nat) (_ : Logging) : LogOp → Prop
  | .setFormatter j _ => j ≠ k
  | _ => True

instance (k : Nat) (s : Logging) : ∀ op, Decidable (KeepsFormatter k s op)
  | .setFormatter j _ => inferInstanceAs (Decidable (j ≠ k))
  | .logger _ | .stdoutAppender | .fileAppender _ | .setAppenderLevel .. | .reopen .. |
    .addAppender .. | .delAppender .. | .setLevel .. | .log .. => isTrue trivial

/-- The stream of the appender has taken the lines of all events. -/
structure Recorded (libc : Libc) (a : LogAppender) : Prop where
  formatter : ∀ formatter, a.formatter = some formatter → formatter = .init defaultPattern
  shown : ∀ d ∈ a.delivered, Shown libc d ≠ none
  text : ∀ stream, a.stream = some stream → stream.refused = 0 → stream.lost = 0 →
    stream.text = (a.delivered.filterMap (Shown libc)).flatMap Printed.text

/-- `localtime_r` keeps the fields within their ranges. -/
def RangesKept (libc : Libc) : Prop := ∀ time tm, libc.localtime time = some tm → tm.InRange

/-- What the default pattern prints is the line of what is shown. -/
theorem format_shown {d : Delivery} {line : Text} (ranges : RangesKept libc)
    (formatted : (LogFormatter.init defaultPattern).format libc d.logger d.level d.event =
      some line) : ∃ p, Shown libc d = some p ∧ line = p.text := by
  cases here : libc.localtime d.event.time with
  | none =>
    -- The date is the first item, and without it there is no line.
    rw [init_defaultPattern] at formatted
    simp [LogFormatter.format, formatItems, FormatItem.format, here] at formatted
  | some tm =>
    rw [format_default here (ranges _ _ here)] at formatted
    exact ⟨_, by rw [Shown, here, Option.map_some], (Option.some.inj formatted).symm⟩

/-- No call makes the record wrong. -/
theorem Change.recorded (ranges : RangesKept libc) (keeps : KeepsFormatter k s op)
    (inv : s.Inv) (changed : Change libc s op k a b) (recorded : Recorded libc a) :
    Recorded libc b := by
  -- By the kind of change: only logging adds to the record, and only it writes.
  cases changed with
  | formatter formatter called =>
    subst called
    exact absurd rfl keeps
  | level => exact ⟨recorded.formatter, recorded.shown, recorded.text⟩
  | adopted here =>
    refine ⟨fun formatter own => ?_, recorded.shown, recorded.text⟩
    -- An appender without a formatter adopts the default one of its logger.
    rcases Option.or_eq_some_iff.mp own with before | ⟨_, adopted⟩
    · exact recorded.formatter formatter before
    · obtain rfl := Option.some.inj adopted
      exact inv.formatter _ here
  | reopened own flushed opened =>
    refine ⟨recorded.formatter, recorded.shown, fun stream here refused lost => ?_⟩
    obtain rfl := Option.some.inj here
    have same : ∀ s : OFStream, (s.reopen flushed opened).1.text = s.text ∧
        (s.reopen flushed opened).1.refused = s.refused ∧
        (s.reopen flushed opened).1.lost = s.lost := by
      intro s
      simp only [OFStream.reopen, OFStream.close, OFStream.openFile]
      split <;> split <;> exact ⟨rfl, rfl, rfl⟩
    rw [(same _).2.1] at refused
    rw [(same _).2.2] at lost
    exact (same _).1.trans (recorded.text _ own refused lost)
  | logged wrote =>
    rcases LogAppender.log_cases wrote with ⟨_, formatter, line, own, formatted, rfl⟩ | ⟨_, rfl⟩
    · obtain rfl := recorded.formatter formatter own
      obtain ⟨p, shown, rfl⟩ := format_shown ranges formatted
      refine ⟨recorded.formatter, List.forall_mem_append.mpr ⟨recorded.shown, by simp [shown]⟩,
        fun stream here refused lost => ?_⟩
      obtain ⟨old, before, rfl⟩ := Option.map_eq_some_iff.mp here
      -- A write that has neither been refused nor lost has been taken in full.
      unfold OFStream.write at refused lost ⊢
      split at refused
      · split at refused
        · rename_i good room
          rw [if_pos good, if_pos room] at lost ⊢
          simp [recorded.text old before refused lost, shown]
        · cases refused
      · rename_i bad
        rw [if_neg bad] at lost
        cases lost
    · exact recorded

/-- A new appender has nothing to record. -/
theorem New.recorded (new : New b) : Recorded libc b := by
  -- Nothing has been delivered to it and its stream has taken nothing.
  cases new with
  | stdout => exact ⟨nofun, nofun, nofun⟩
  | file opened =>
    refine ⟨nofun, nofun, fun stream here _ _ => ?_⟩
    obtain rfl := Option.some.inj here
    cases opened <;> rfl

/-- The record of the appender is right, if there is such an appender. -/
structure RecordedAt (libc : Libc) (k : Nat) (s : Logging) : Prop where
  inv : s.Inv
  recorded : ∀ a, s.appenders[k]? = some a → Recorded libc a

/-- The record is right wherever a run leads. -/
theorem RecordedAt.of_run {ops : List LogOp} (ranges : RangesKept libc)
    (run : Run (step libc) (KeepsFormatter k) start ops s) : RecordedAt libc k s := by
  -- By induction on the run, over a possible appender that is made on the way.
  refine run.invariant ⟨inv_start, ?_⟩ ?_
  · intro a here
    obtain rfl := List.mem_singleton.mp (List.mem_of_getElem? here)
    exact ⟨fun _ own => (Option.some.inj own).symm, nofun, nofun⟩
  · rintro u op v ⟨inv, recorded⟩ keeps called
    refine ⟨inv.step called, fun b here => ?_⟩
    rcases (step_stepped called).new k b here with ⟨a, at_⟩ | new
    · obtain ⟨c, there, kept⟩ := (step_stepped called).preserves
        (fun _ _ recorded changed => changed.recorded ranges keeps inv recorded) at_
        (recorded a at_)
      obtain rfl := Option.some.inj (here.symm.trans there)
      exact kept
    · exact new.recorded

/-- All that has been delivered can be shown, and it is what the lines show. -/
theorem Recorded.map_shown (recorded : Recorded libc a) :
    a.delivered.map (Shown libc) = (a.delivered.filterMap (Shown libc)).map some := by
  -- Every delivery has its line, so the filter keeps them all.
  rw [List.map_filterMap_some_eq_filter_map_isSome, List.filter_eq_self.mpr]
  intro p member
  obtain ⟨d, inside, rfl⟩ := List.mem_map.mp member
  exact Option.isSome_iff_ne_none.mpr (recorded.shown d inside)

/-- The lines of clean events are clean. -/
theorem clean_of_shown {ds : List Delivery} (clean : ∀ d ∈ ds, CleanDelivery d) :
    ∀ p ∈ ds.filterMap (Shown libc), p.Clean := by
  -- The line is printed from the fields that are clean.
  intro p member
  obtain ⟨d, inside, shown⟩ := List.mem_filterMap.mp member
  obtain ⟨tm, _, rfl⟩ := Option.map_eq_some_iff.mp shown
  obtain ⟨name, file, content⟩ := clean d inside
  exact ⟨name, file, content⟩

/--
What a stream has taken in the default pattern says which events have been logged to it, in which
order and with which values: two programs with the same text have logged the same.
-/
theorem log_text_determines {ops others : List LogOp} {j : Nat} {stream streamOther : OFStream}
    (ranges : RangesKept libc)
    (run : Run (step libc) (KeepsFormatter k) start ops s)
    (runOther : Run (step libc) (KeepsFormatter j) start others t)
    (first : s.appenders[k]? = some a) (second : t.appenders[j]? = some b)
    (own : a.stream = some stream) (ownOther : b.stream = some streamOther)
    (complete : stream.refused = 0 ∧ stream.lost = 0)
    (completeOther : streamOther.refused = 0 ∧ streamOther.lost = 0)
    (clean : ∀ d ∈ a.delivered, CleanDelivery d) (cleanOther : ∀ d ∈ b.delivered, CleanDelivery d)
    (same : stream.text = streamOther.text) :
    a.delivered.map (Shown libc) = b.delivered.map (Shown libc) := by
  -- Each text consists of the lines of what was delivered, and these can be read back.
  have one := (RecordedAt.of_run ranges run).recorded a first
  have two := (RecordedAt.of_run ranges runOther).recorded b second
  rw [one.text stream own complete.1 complete.2,
    two.text streamOther ownOther completeOther.1 completeOther.2] at same
  rw [one.map_shown, two.map_shown,
    Printed.log_inj (clean_of_shown clean) (clean_of_shown cleanOther) same]

/-- An event goes to a file appender. -/
def directCalls : List LogOp :=
  [.fileAppender true, .addAppender 0 1, .log 0 .info epochEvent []]

/-- The same event goes to another one, after other events that did not pass. -/
def thresholdCalls : List LogOp :=
  [.stdoutAppender, .fileAppender true, .log 0 .warn epochEvent [], .addAppender 0 2,
    .setLevel 0 .info, .log 0 .debug epochEvent [], .log 0 .info epochEvent [],
    .setAppenderLevel 2 .fatal, .log 0 .error epochEvent []]

/-- What can be seen of a file appender. -/
def seen (file : LogAppender × OFStream) : Text × Nat × Nat × Nat × Bool :=
  (file.2.text, file.2.refused, file.2.lost, file.1.delivered.length,
    decide (∀ d ∈ file.1.delivered, CleanDelivery d))

/-- The line that both calls write. -/
def epochLine : Text :=
  "1970-01-01 00:00:00\t42\t0\t[INFO]\t[root]\tmain.cc:7\tready\t1\n".toList

/-- Two ways to log an event cannot be told apart. -/
theorem log_text_determines_epoch : ∃ a b : LogAppender, a.delivered.length = 1 ∧
    a.delivered.map (Shown epochLibc) = b.delivered.map (Shown epochLibc) := by
  have ranges : RangesKept epochLibc := by
    intro time tm here
    simp only [epochLibc, Option.ite_none_right_eq_some] at here
    obtain rfl := Option.some.inj here.2
    exact ⟨by decide, by decide, by decide, by decide, by decide, by decide⟩
  have direct : ((execute (step epochLibc) (KeepsFormatter 1) start directCalls).bind
      (fileAt 1)).map seen = some (epochLine, 0, 0, 1, true) := by decide +kernel
  have threshold : ((execute (step epochLibc) (KeepsFormatter 2) start thresholdCalls).bind
      (fileAt 2)).map seen = some (epochLine, 0, 0, 1, true) := by decide +kernel
  obtain ⟨⟨a, stream⟩, direct, saw⟩ := Option.map_eq_some_iff.mp direct
  obtain ⟨⟨b, file⟩, threshold, sawOther⟩ := Option.map_eq_some_iff.mp threshold
  simp only [seen, Prod.mk.injEq, decide_eq_true_eq] at saw sawOther
  obtain ⟨s, ran, direct⟩ := Option.bind_eq_some_iff.mp direct
  obtain ⟨t, ranOther, threshold⟩ := Option.bind_eq_some_iff.mp threshold
  obtain ⟨_, first, direct⟩ := Option.bind_eq_some_iff.mp direct
  obtain ⟨_, second, threshold⟩ := Option.bind_eq_some_iff.mp threshold
  obtain ⟨_, own, shape⟩ := Option.map_eq_some_iff.mp direct
  obtain ⟨_, ownOther, shapeOther⟩ := Option.map_eq_some_iff.mp threshold
  cases shape
  cases shapeOther
  exact ⟨a, b, saw.2.2.2.1, log_text_determines ranges (.of_execute ran) (.of_execute ranOther)
    first second own ownOther ⟨saw.2.1, saw.2.2.1⟩ ⟨sawOther.2.1, sawOther.2.2.1⟩ saw.2.2.2.2
    sawOther.2.2.2.2 (saw.1.trans sawOther.1.symm)⟩

end Text

end Logging

end SimpleSrv.Tiga
