import SimpleSrv.Lib.Endings
import SimpleSrv.Tiga.Scanner

/-! Doubled percent signs, of which the log formatter looks at the second one again. -/

namespace SimpleSrv.Tiga

/-- A text with each percent sign doubled. -/
def escape (text : Text) : Text := text.flatMap fun ch => if ch = '%' then ['%', '%'] else [ch]

/-- An empty text needs no escapes. -/
@[simp] theorem escape_nil : escape [] = [] := rfl

/-- A percent sign is written twice. -/
@[simp] theorem escape_percent (rest : Text) :
    escape ('%' :: rest) = '%' :: '%' :: escape rest := rfl

/-- Any character but a percent sign is left as it is. -/
theorem escape_char {ch : Char} (plain : ch ≠ '%') (rest : Text) :
    escape (ch :: rest) = ch :: escape rest := by
  -- Only percent signs are doubled.
  rw [escape, List.flatMap_cons, if_neg plain, ← escape]
  rfl

/-- Doubling percent signs does not change the first character. -/
@[simp] theorem head?_escape (text : Text) : (escape text).head? = text.head? := by
  -- A doubled percent sign still begins with one.
  cases text with
  | nil => rfl
  | cons ch rest =>
    by_cases percent : ch = '%'
    · rw [percent, escape_percent]
      rfl
    · rw [escape_char percent]
      rfl

/-- Doubling percent signs adds no other character. -/
theorem mem_escape {ch : Char} {text : Text} : ch ∈ escape text ↔ ch ∈ text := by
  -- The induction follows the text, with a doubled sign counted once.
  induction text with
  | nil => rfl
  | cons first rest ih =>
    by_cases percent : first = '%'
    · rw [percent, escape_percent, List.mem_cons, List.mem_cons, List.mem_cons, ih, or_self_left]
    · rw [escape_char percent, List.mem_cons, List.mem_cons, ih]

/-- A text is cut off at a character that is no percent sign, doubled or not. -/
theorem takeWhile_escape {p : Char → Bool} (goes : p '%' = true) (text : Text) :
    (escape text).takeWhile p = escape (text.takeWhile p) := by
  -- The induction follows the text, and a pair of percent signs is passed as a whole.
  induction text with
  | nil => rfl
  | cons ch rest ih =>
    by_cases percent : ch = '%'
    · simp [percent, goes, ih]
    · rw [escape_char percent, List.takeWhile_cons, List.takeWhile_cons]
      cases p ch with
      | false => rfl
      | true => rw [if_pos rfl, if_pos rfl, escape_char percent, ih]

/-- How a directive was written before the percent signs of its argument were doubled. -/
def Parsed.Written (parsed : Parsed) (written : Text) : Prop :=
  (parsed.arg = [] ∧ written = parsed.key) ∨
    ∃ inner, '}' ∉ inner ∧ parsed.arg = escape inner ∧
      written = parsed.key ++ '{' :: (inner ++ ['}'])

/-- One more character of the key was written before the others. -/
theorem Parsed.Written.cons {parsed : Parsed} {written : Text} (ch : Char)
    (same : parsed.Written written) :
    ({ parsed with key := ch :: parsed.key } : Parsed).Written (ch :: written) := by
  rcases same with ⟨arg, rfl⟩ | ⟨inner, inside, arg, rfl⟩
  · exact .inl ⟨arg, rfl⟩
  · exact .inr ⟨inner, inside, arg, rfl⟩

/-- Texts behind each other have their percent signs doubled on their own. -/
theorem escape_append (first second : Text) :
    escape (first ++ second) = escape first ++ escape second := by
  simp [escape]

/-- A directive that is read from a text with doubled percent signs is a part of the text. -/
theorem readDirective_escape {text : Text} {parsed : Parsed}
    (read : readDirective (escape text) = some parsed) :
    ∃ written rest, text = written ++ rest ∧ parsed.rest = escape rest ∧
      parsed.Written written ∧ ∀ ch ∈ parsed.key, isKeyChar ch := by
  -- The induction follows the text, as long as its characters belong to the key.
  induction text generalizing parsed with
  | nil =>
    obtain rfl := Option.some.inj (readDirective_nil.symm.trans read)
    exact ⟨[], [], rfl, rfl, .inl ⟨rfl, rfl⟩, by simp⟩
  | cons ch text ih =>
    by_cases percent : ch = '%'
    · -- A percent sign ends the key before it.
      subst percent
      rw [escape_percent, readDirective_stop (by decide) (by decide)] at read
      obtain rfl := Option.some.inj read
      exact ⟨[], '%' :: text, rfl, rfl, .inl ⟨rfl, rfl⟩, by simp⟩
    · rw [escape_char percent] at read
      by_cases inKey : isKeyChar ch
      · rw [readDirective_key inKey] at read
        -- The directive goes on behind this character.
        obtain ⟨inner, found, rfl⟩ := Option.map_eq_some_iff.mp read
        obtain ⟨written, rest, rfl, same, wrote, keys⟩ := ih found
        refine ⟨ch :: written, rest, rfl, same, wrote.cons ch, ?_⟩
        intro other member
        rcases List.mem_cons.mp member with rfl | member
        · exact inKey
        · exact keys other member
      · by_cases opens : ch = '{'
        · subst opens
          by_cases closes : '}' ∈ text
          · -- The first closing brace is the same one in both texts.
            obtain ⟨inner, rest, rfl, inside⟩ := List.eq_append_cons_of_mem closes
            have inside' : '}' ∉ escape inner := fun found => inside (mem_escape.mp found)
            rw [escape_append, escape_char (by decide), readDirective_arg inside'] at read
            obtain rfl := Option.some.inj read
            exact ⟨'{' :: (inner ++ ['}']), rest, by simp, rfl, .inr ⟨inner, inside, rfl, rfl⟩,
              by simp⟩
          · -- Without a closing brace nothing would have been read.
            rw [readDirective_brace, if_neg fun found => closes (mem_escape.mp found)] at read
            cases read
        · -- Any other character is left to what follows the directive.
          rw [readDirective_stop inKey opens] at read
          obtain rfl := Option.some.inj read
          exact ⟨[], ch :: text, rfl, (escape_char percent text).symm, .inl ⟨rfl, rfl⟩, by simp⟩

/-- A format without other conversions is written with its percent signs single again. -/
theorem strftimeText_escape (libc : Libc) (tm : Tm) (text : Text) :
    libc.strftimeText tm (escape text) = some text := by
  -- The induction follows the text, and a pair of percent signs is one conversion.
  induction text with
  | nil => rfl
  | cons ch rest ih =>
    by_cases percent : ch = '%'
    · subst percent
      simp [Libc.strftimeText, conversion, ih]
    · rw [escape_char percent, Libc.strftimeText, ih, Option.map_some]
      · exact fun _ _ same => absurd same percent
      · exact fun same => absurd same percent

/-- A number ends with a digit. -/
theorem toDigits_last (n : Nat) : ∃ front ch, Nat.toDigits 10 n = front ++ [ch] ∧ ch.isDigit := by
  -- A number has at least one digit, and all of its characters are digits.
  obtain ⟨front, ch, same⟩ := List.eq_nil_or_concat' (Nat.toDigits 10 n) |>.resolve_left
    Nat.toDigits_ne_nil
  refine ⟨front, ch, same, ?_⟩
  exact Nat.isDigit_of_mem_toDigits (b := 10) (n := n) (by decide) (by decide) (by simp [same])

/-- The default format of a date ends with a digit. -/
theorem defaultDateTime_last (libc : Libc) (tm : Tm) :
    ∃ front ch, libc.strftimeText tm (cString defaultDateTime) = some (front ++ [ch]) ∧
      ch.isDigit := by
  -- The format ends with the seconds, which are written with two digits at least.
  obtain ⟨front, ch, same, digit⟩ : ∃ front ch, twoDigits tm.sec = front ++ [ch] ∧ ch.isDigit := by
    obtain ⟨front, ch, same, digit⟩ := toDigits_last tm.sec
    unfold twoDigits
    split
    · exact ⟨'0' :: front, ch, by rw [same]; rfl, digit⟩
    · exact ⟨front, ch, same, digit⟩
  have format : cString defaultDateTime =
      ['%', 'Y', '-', '%', 'm', '-', '%', 'd', ' ', '%', 'H', ':', '%', 'M', ':', '%', 'S'] := by
    decide
  refine ⟨decimal (tm.year + 1900) ++ '-' :: (twoDigits (tm.mon + 1) ++ '-' :: (twoDigits tm.mday ++
    ' ' :: (twoDigits tm.hour ++ ':' :: (twoDigits tm.min ++ ':' :: front)))), ch, ?_, digit⟩
  rw [format]
  simp [Libc.strftimeText, conversion, same]

/-- A logger whose name ends with no character of a directive. -/
def markedLogger : Logger := ⟨['!']⟩

/-- An event whose texts end with no character of a directive. -/
def markedEvent : LogEvent :=
  { file := ['!'], line := 0, elapse := 0, threadId := 0, fiberId := 0, time := 0,
    content := ['!'] }

/-- The text that an item writes for the marked event. -/
def FormatItem.marked (libc : Libc) (item : FormatItem) : Option Text :=
  item.format libc markedLogger .unknow markedEvent

/-- A directive ends with a closing brace, or with its key, or at its percent sign. -/
theorem Parsed.Written.last {parsed : Parsed} {written : Text} (wrote : parsed.Written written)
    (keys : ∀ ch ∈ parsed.key, isKeyChar ch) :
    ∃ front ch, '%' :: written = front ++ [ch] ∧ '>' ≠ ch ∧
      (ch = '}' ∨ (written = parsed.key ∧ ('%' :: parsed.key).getLast? = some ch)) := by
  rcases wrote with ⟨_, rfl⟩ | ⟨inner, _, _, rfl⟩
  · obtain ⟨front, ch, same⟩ := List.eq_nil_or_concat' ('%' :: parsed.key) |>.resolve_left
      (List.cons_ne_nil _ _)
    refine ⟨front, ch, same, ?_, .inr ⟨rfl, by simp [same]⟩⟩
    -- An angle bracket is neither a percent sign nor part of a key.
    rintro rfl
    have member : '>' ∈ '%' :: parsed.key := by simp [same]
    rcases List.mem_cons.mp member with percent | member
    · exact absurd percent (by decide)
    · exact absurd (keys '>' member) (by decide)
  · exact ⟨'%' :: (parsed.key ++ '{' :: inner), '}', by simp, by decide, .inl rfl⟩

/-- No percent sign follows a directive that ends with one. -/
theorem Parsed.Written.alone {parsed : Parsed} {written rest : Text} {ch : Char}
    (keys : ∀ ch ∈ parsed.key, isKeyChar ch) (single : (written ++ rest).head? ≠ some '%')
    (closes : ch = '}' ∨ (written = parsed.key ∧ ('%' :: parsed.key).getLast? = some ch))
    (more : rest.head? = some '%') : '%' ≠ ch := by
  -- A sign of its own would be the last character of the directive.
  rintro rfl
  rcases closes with brace | ⟨bare, keyed⟩
  · exact absurd brace (by decide)
  · -- Only an empty key ends at the percent sign, and the next character would be another one.
    cases key : parsed.key with
    | nil =>
      rw [bare, key, List.nil_append] at single
      exact single more
    | cons first others =>
      rw [key, List.getLast?_cons_cons] at keyed
      exact absurd (keys '%' (key ▸ List.mem_of_getLast? keyed)) (by decide)

/-- The text of an unknown key ends with an angle bracket. -/
theorem errorFormat_last (key : Text) : ∃ front, errorFormat key = front ++ ['>'] := by
  -- The error closes with two brackets, of which one is enough.
  have brackets : ">>".toList = ['>'] ++ ['>'] := by decide
  have split (text : Text) : text ++ ">>".toList = (text ++ ['>']) ++ ['>'] := by
    rw [brackets, List.append_assoc]
  exact ⟨_, split ("<<error_format %".toList ++ key)⟩

/-- What the item of a known key writes, unless it is a date, ends unlike its directive. -/
theorem marked_known {key : Text} {construct : Text → FormatItem} (libc : Libc) (arg : Text)
    (known : formatItemTable.lookup key = some construct) :
    ∃ k, key = [k] ∧ k ≠ '}' ∧ ((k = 'd' ∧ construct = dateTimeItem) ∨
      ∃ front x, (construct arg).marked libc = some (front ++ [x]) ∧ x ≠ k ∧ x ≠ '}') := by
  -- A key that is found stands in the table.
  obtain ⟨before, behind, split, _⟩ := List.lookup_eq_some_iff.mp known
  have listed : (key, construct) ∈ formatItemTable := by
    rw [split]
    exact List.mem_append_right _ List.mem_cons_self
  simp only [formatItemTable, List.mem_cons, Prod.mk.injEq, List.not_mem_nil, or_false] at listed
  -- The cases are the keys in the order of the table.
  rcases listed with ⟨rfl, rfl⟩ | ⟨rfl, rfl⟩ | ⟨rfl, rfl⟩ | ⟨rfl, rfl⟩ | ⟨rfl, rfl⟩ | ⟨rfl, rfl⟩ |
    ⟨rfl, rfl⟩ | ⟨rfl, rfl⟩ | ⟨rfl, rfl⟩ | ⟨rfl, rfl⟩ | ⟨rfl, rfl⟩
  · exact ⟨'m', rfl, by decide, .inr ⟨[], '!', rfl, by decide, by decide⟩⟩
  · exact ⟨'p', rfl, by decide, .inr ⟨"UNKNO".toList, 'W', rfl, by decide, by decide⟩⟩
  · exact ⟨'r', rfl, by decide, .inr ⟨[], '0', rfl, by decide, by decide⟩⟩
  · exact ⟨'c', rfl, by decide, .inr ⟨[], '!', rfl, by decide, by decide⟩⟩
  · exact ⟨'t', rfl, by decide, .inr ⟨[], '0', rfl, by decide, by decide⟩⟩
  · exact ⟨'n', rfl, by decide, .inr ⟨[], '\n', rfl, by decide, by decide⟩⟩
  · exact ⟨'d', rfl, by decide, .inl ⟨rfl, rfl⟩⟩
  · exact ⟨'f', rfl, by decide, .inr ⟨[], '!', rfl, by decide, by decide⟩⟩
  · exact ⟨'l', rfl, by decide, .inr ⟨[], '0', rfl, by decide, by decide⟩⟩
  · exact ⟨'T', rfl, by decide, .inr ⟨[], '\t', rfl, by decide, by decide⟩⟩
  · exact ⟨'F', rfl, by decide, .inr ⟨[], '0', rfl, by decide, by decide⟩⟩

/-- The text that stands for an unfinished directive ends with an angle bracket. -/
theorem patternError_last : ∃ front, patternError = front ++ ['>'] :=
  ⟨"<<pattern_error>".toList, by decide⟩

/-- What follows a percent sign ends unlike what is written there. -/
def EndsApart (output written : Text) : Prop := DifferFromEnd ('%' :: output) ('%' :: written)

/-- Texts end apart where the last characters of both are known. -/
theorem EndsApart.of_last {output written : Text} {front front' : Text} {x y : Char}
    (wrote : '%' :: written = front' ++ [y]) (printed : output = front ++ [x])
    (different : x ≠ y) : EndsApart output written := by
  -- Only the last characters matter.
  rw [EndsApart, wrote, printed]
  exact .of_last ('%' :: front) front' different

/-- A date ends apart from its directive. -/
theorem date_endsApart {parsed : Parsed} {written output : Text} (libc : Libc)
    (wrote : parsed.Written written) (key : parsed.key = ['d'])
    (prints : (dateTimeItem parsed.arg).marked libc = some output) : EndsApart output written := by
  -- The directive ends with its key or with a brace, and the date is written through `strftime`.
  have keys : ∀ ch ∈ parsed.key, isKeyChar ch := by
    simp [key, isKeyChar]
  obtain ⟨front', y, last, _, closes⟩ := wrote.last keys
  simp only [FormatItem.marked, dateTimeItem, FormatItem.format] at prints
  obtain ⟨tm, _, prints⟩ := Option.bind_eq_some_iff.mp prints
  obtain ⟨text, wrote', prints⟩ := Option.bind_eq_some_iff.mp prints
  obtain ⟨_, same⟩ := Option.ite_none_right_eq_some.mp prints
  obtain rfl := Option.some.inj same
  by_cases none : parsed.arg = []
  · -- The default format ends with a digit, and its directive with a letter or a brace.
    obtain ⟨front, x, same, digit⟩ := defaultDateTime_last libc tm
    rw [if_pos none, same, Option.some.injEq] at wrote'
    refine .of_last last wrote'.symm ?_
    rintro rfl
    rcases closes with rfl | ⟨_, keyed⟩
    · exact absurd digit (by decide)
    · obtain rfl : 'd' = x := by simpa [key] using keyed
      exact absurd digit (by decide)
  · rw [if_neg none] at wrote'
    obtain ⟨inner, inside, arg, rfl⟩ := wrote.resolve_left fun bare => none bare.1
    -- Any other format is written as it stands, and has no closing brace.
    rw [arg, cString, takeWhile_escape (by decide), strftimeText_escape,
      Option.some.injEq] at wrote'
    have noBrace : '}' ∉ text := fun found =>
      inside ((List.takeWhile_sublist _).subset (wrote'.symm ▸ found))
    have brace : '%' :: (parsed.key ++ '{' :: (inner ++ ['}'])) =
        ('%' :: (parsed.key ++ '{' :: inner)) ++ ['}'] := by
      simp
    -- Such a format may be empty, and then the percent sign is what is left.
    rcases List.eq_nil_or_concat' text with rfl | ⟨front, x, rfl⟩
    · rw [EndsApart, brace]
      exact .of_last [] _ (by decide)
    · refine .of_last brace rfl ?_
      rintro rfl
      exact noBrace (by simp)

/-- Whatever a directive writes for the marked event ends apart from the directive. -/
theorem directive_endsApart {parsed : Parsed} {written output : Text} (libc : Libc)
    (wrote : parsed.Written written) (keys : ∀ ch ∈ parsed.key, isKeyChar ch)
    (prints : (Entry.item ⟨parsed.key, parsed.arg, 1⟩).marked libc = some output) :
    EndsApart output written := by
  -- An unknown key prints an error, and a known one its item.
  obtain ⟨front', y, last, bracket, closes⟩ := wrote.last keys
  rw [Entry.item, if_neg Nat.one_ne_zero] at prints
  cases known : formatItemTable.lookup parsed.key with
  | none =>
    simp only [known, FormatItem.marked, FormatItem.format, Option.some.injEq] at prints
    -- The error ends with a bracket, which no directive does.
    obtain ⟨front, same⟩ := errorFormat_last parsed.key
    exact .of_last last (prints.symm.trans same) bracket
  | some construct =>
    rw [known] at prints
    -- The items other than dates end unlike their keys.
    obtain ⟨k, key, letter, ⟨rfl, rfl⟩ | ⟨front, x, same, apart, open'⟩⟩ :=
      marked_known libc parsed.arg known
    · exact date_endsApart libc wrote key prints
    · refine .of_last last (Option.some.inj (prints.symm.trans same)) ?_
      rintro rfl
      rcases closes with brace | ⟨_, keyed⟩
      · exact open' brace
      · exact apart (by simpa [key] using keyed.symm)

section Output

variable (libc : Libc) (logger : Logger) (level : LogLevel) (event : LogEvent)

/-- Collected literal text is written as it is. -/
theorem formatItems_pushText (nstr : Text) (rest : List Entry) :
    formatItems libc logger level event ((pushText [] nstr ++ rest).map Entry.item) =
      (formatItems libc logger level event (rest.map Entry.item)).map (nstr ++ ·) := by
  -- Empty text is not pushed at all.
  by_cases empty : nstr = []
  · simp [pushText, empty]
  · rw [pushText, if_neg empty]
    rfl

/-- What a formatter writes for the rest of a text whose percent signs are doubled. -/
def output (nstr text : Text) : Option Text :=
  formatItems libc logger level event ((assemble nstr (tokens (escape text))).map Entry.item)

variable {libc logger level event} {nstr text : Text}

/-- At the end, the collected text is written. -/
theorem output_nil : output libc logger level event nstr [] = some nstr := by
  -- Nothing is left to be scanned, so the text is the only item.
  have pushed := formatItems_pushText libc logger level event nstr []
  rw [List.append_nil] at pushed
  rw [output, escape_nil, tokens_nil, assemble, pushed]
  simp [formatItems]

/-- A character that is no percent sign is collected. -/
theorem output_char {ch : Char} (plain : ch ≠ '%') :
    output libc logger level event nstr (ch :: text) =
      output libc logger level event (nstr ++ [ch]) text := by
  rw [output, escape_char plain, tokens_char plain, assemble, ← output]

/-- Of two percent signs in a row, the first one is collected twice. -/
theorem output_pair (more : text.head? = some '%') :
    output libc logger level event nstr ('%' :: text) =
      output libc logger level event (nstr ++ ['%', '%']) text := by
  -- The two signs are four in the pattern, and each pair of steps collects one.
  obtain ⟨rest, rfl⟩ := List.head?_eq_some_iff.mp more
  rw [output, escape_percent, tokens_pair, assemble, escape_percent, tokens_pair, assemble,
    List.append_assoc, ← escape_percent, ← output]
  rfl

/-- The last percent sign in a row is collected, and begins a directive besides. -/
theorem output_directive {rest : Text} {parsed : Parsed} (single : text.head? ≠ some '%')
    (read : readDirective (escape text) = some parsed) (left : parsed.rest = escape rest) :
    output libc logger level event nstr ('%' :: text) =
      ((Entry.item ⟨parsed.key, parsed.arg, 1⟩).format libc logger level event).bind fun first =>
        (output libc logger level event [] rest).map fun others =>
          nstr ++ '%' :: (first ++ others) := by
  -- The doubled sign gives one to the text and one to the directive.
  have single' : (escape text).head? ≠ some '%' := by rwa [head?_escape]
  rw [output, escape_percent, tokens_pair, assemble, tokens_directive single' read, assemble,
    formatItems_pushText, List.map_cons, formatItems, left, ← output]
  cases (Entry.item ⟨parsed.key, parsed.arg, 1⟩).format libc logger level event with
  | none => rfl
  | some first =>
    cases output libc logger level event [] rest with
    | none => rfl
    | some others => simp

/-- An unfinished directive writes its error before the collected text. -/
theorem output_unfinished (single : text.head? ≠ some '%')
    (read : readDirective (escape text) = none) :
    output libc logger level event nstr ('%' :: text) =
      (output libc logger level event (nstr ++ ['%']) text).map (patternError ++ ·) := by
  -- The scanner starts anew behind the sign, with the text still collected.
  have single' : (escape text).head? ≠ some '%' := by rwa [head?_escape]
  rw [output, escape_percent, tokens_pair, assemble, tokens_unfinished single' read, assemble,
    List.map_cons, formatItems, ← output]
  rfl

/-- A text without percent signs is written as it is. -/
theorem output_of_notMem (plain : '%' ∉ text) :
    output libc logger level event nstr text = some (nstr ++ text) := by
  -- The induction follows the text, each of whose characters is collected.
  induction text generalizing nstr with
  | nil => rw [output_nil, List.append_nil]
  | cons ch rest ih =>
    obtain ⟨different, others⟩ := List.ne_and_not_mem_of_not_mem_cons plain
    rw [output_char (Ne.symm different), ih others, List.append_assoc]
    rfl

end Output

/-- A text in which percent signs have been added to some rows of them. -/
def Stretched (text longer : Text) : Prop :=
  text.length ≤ longer.length ∧
    (longer = text ∨ (text.head? = some '%' ∧ ∃ n, longer = List.replicate n '%' ++ '%' :: text) ∨
      DifferFromEnd longer text)

/-- How the output for a text with doubled percent signs relates to the text. -/
inductive Outcome (nstr text output : Text) : Prop
  | plain : '%' ∉ text → output = nstr ++ text → Outcome nstr text output
  /-- No directive is complete, and the errors come before everything else. -/
  | errors (front longer : Text) : output = front ++ '>' :: (nstr ++ longer) →
      Stretched text longer → Outcome nstr text output
  | apart : DifferFromEnd output text → Outcome nstr text output

namespace Stretched

variable {text longer : Text}

/-- Nothing has to be added. -/
theorem refl (text : Text) : Stretched text text := ⟨Nat.le_refl _, .inl rfl⟩

/-- A character before a row shows where percent signs were added to it. -/
theorem char {ch : Char} (plain : ch ≠ '%') (stretched : Stretched text longer) :
    Stretched (ch :: text) (ch :: longer) := by
  -- The length grows on both sides by one.
  obtain ⟨length, shape⟩ := stretched
  refine ⟨by simpa using length, ?_⟩
  rcases shape with rfl | ⟨_, n, rfl⟩ | differ
  · exact .inl rfl
  · -- The character stands where the longer text has a percent sign.
    have last : DifferFromEnd (ch :: List.replicate n '%' ++ ['%']) ([] ++ [ch]) :=
      .of_last _ _ (Ne.symm plain)
    exact .inr (.inr (by simpa using last.append_right text))
  · exact .inr (.inr (differ.append_left [ch] [ch]))

/-- A percent sign is added to a row that is longer than one. -/
theorem pair (more : text.head? = some '%') (stretched : Stretched text longer) :
    Stretched ('%' :: text) ('%' :: '%' :: longer) := by
  -- The longer text gains one percent sign more than the other.
  obtain ⟨length, shape⟩ := stretched
  refine ⟨by simp only [List.length_cons]; omega, ?_⟩
  rcases shape with rfl | ⟨_, n, rfl⟩ | differ
  · exact .inr (.inl ⟨rfl, 0, rfl⟩)
  · refine .inr (.inl ⟨rfl, n + 1, ?_⟩)
    -- The sign that is added joins those in the row.
    have more : '%' :: '%' :: (List.replicate n '%' ++ '%' :: text) =
        List.replicate (n + 2) '%' ++ '%' :: text := rfl
    rw [more, List.replicate_succ', List.append_assoc]
    rfl
  · exact .inr (.inr (differ.append_left ['%', '%'] ['%']))

/-- Nothing is added to a row of one. -/
theorem single (alone : text.head? ≠ some '%') (stretched : Stretched text longer) :
    Stretched ('%' :: text) ('%' :: longer) := by
  -- The length grows on both sides by one.
  obtain ⟨length, shape⟩ := stretched
  refine ⟨by simpa using length, ?_⟩
  rcases shape with rfl | ⟨more, _⟩ | differ
  · exact .inl rfl
  · exact absurd more alone
  · exact .inr (.inr (differ.append_left ['%'] ['%']))

end Stretched

/-- Behind a directive, the output ends unlike the text, whatever follows. -/
theorem Outcome.behind {nstr first written rest others front : Text} {y : Char}
    (endsApart : EndsApart first written) (last : '%' :: written = front ++ [y]) (bracket : '>' ≠ y)
    (alone : rest.head? = some '%' → '%' ≠ y) (outcome : Outcome [] rest others) :
    DifferFromEnd (nstr ++ '%' :: (first ++ others)) ('%' :: (written ++ rest)) := by
  -- The cases are what becomes of the text behind the directive.
  have whole : '%' :: (written ++ rest) = '%' :: written ++ rest := rfl
  cases outcome with
  | plain _ same =>
    have differ := (endsApart.append_right rest).append_left nstr []
    simpa [same] using differ
  | errors errors longer same stretched =>
    obtain ⟨_, rfl | ⟨more, n, rfl⟩ | differ⟩ := stretched
    · have differ := (DifferFromEnd.of_last (nstr ++ '%' :: (first ++ errors)) front bracket)
      rw [whole, last]
      simpa [same] using differ.append_right longer
    · have differ := DifferFromEnd.of_last
        (nstr ++ '%' :: (first ++ (errors ++ '>' :: List.replicate n '%'))) front (alone more)
      rw [whole, last]
      simpa [same] using differ.append_right rest
    · have differ := differ.append_left (nstr ++ '%' :: (first ++ (errors ++ ['>'])))
        ('%' :: written)
      simpa [same] using differ
  | apart differ =>
    have differ := differ.append_left (nstr ++ '%' :: first) ('%' :: written)
    simpa using differ

/-- Every output for a text with doubled percent signs has one of the outcomes. -/
theorem outcome (libc : Libc) : ∀ {text nstr written : Text},
    output libc markedLogger .unknow markedEvent nstr text = some written →
      Outcome nstr text written
  | [], nstr, written, prints => by
    -- Nothing is left, so the collected text is all.
    obtain rfl := Option.some.inj (output_nil.symm.trans prints)
    exact .plain List.not_mem_nil (List.append_nil _).symm
  | ch :: text, nstr, written, prints => by
    -- The cases are the steps of the scanner, and the outcome behind each is known by induction.
    by_cases plain : ch ≠ '%'
    · rw [output_char plain] at prints
      cases outcome libc prints with
      | plain absent same =>
        refine .plain ?_ (by rw [same, List.append_assoc]; rfl)
        exact fun found => (List.mem_cons.mp found).elim (Ne.symm plain) absent
      | errors front longer same stretched =>
        exact .errors front (ch :: longer) (by simpa using same) (stretched.char plain)
      | apart differ => exact .apart (differ.append_left [] [ch])
    · obtain rfl := Decidable.not_not.mp plain
      by_cases more : text.head? = some '%'
      · rw [output_pair more] at prints
        cases outcome libc prints with
        | plain absent =>
          exact absurd (List.mem_of_head? more) absent
        | errors front longer same stretched =>
          exact .errors front ('%' :: '%' :: longer) (by simpa using same) (stretched.pair more)
        | apart differ => exact .apart (differ.append_left [] ['%'])
      · cases read : readDirective (escape text) with
        | none =>
          -- The error of this directive comes before all that follows.
          rw [output_unfinished more read] at prints
          obtain ⟨others, behind, rfl⟩ := Option.map_eq_some_iff.mp prints
          obtain ⟨error, bracket⟩ := patternError_last
          cases outcome libc behind with
          | plain _ same =>
            refine .errors error ('%' :: text) ?_ (.refl _)
            simp [same, bracket]
          | errors front longer same stretched =>
            refine .errors (patternError ++ front) ('%' :: longer) ?_ (stretched.single more)
            simp [same]
          | apart differ => exact .apart (differ.append_left patternError ['%'])
        | some parsed =>
          -- A directive writes something that ends unlike itself.
          obtain ⟨word, rest, same, left, wrote, keys⟩ := readDirective_escape read
          have shorter : rest.length ≤ text.length := by simp [same]
          obtain rfl := same
          rw [output_directive more read left] at prints
          obtain ⟨first, item, prints⟩ := Option.bind_eq_some_iff.mp prints
          obtain ⟨others, behind, rfl⟩ := Option.map_eq_some_iff.mp prints
          obtain ⟨front, y, last, bracket, closes⟩ := wrote.last keys
          have endsApart := directive_endsApart libc wrote keys item
          exact .apart ((outcome libc behind).behind endsApart last bracket
            (Parsed.Written.alone keys more closes))
termination_by text => text.length
decreasing_by
  · simp
  · simp
  · simp
  · simp only [List.length_cons]
    omega

/-- Doubling percent signs escapes exactly those texts that have none. -/
theorem format_escape_iff (libc : Libc) (text : Text) :
    (∀ logger level event,
      (LogFormatter.init (escape text)).format libc logger level event = some text) ↔
        '%' ∉ text := by
  -- The marked logger and event show each outcome to differ from the text.
  constructor
  · intro always found
    have prints := always markedLogger .unknow markedEvent
    rw [LogFormatter.format, LogFormatter.init_items, ← output] at prints
    cases outcome libc prints with
    | plain absent => exact absent found
    | errors front longer same stretched =>
      -- The output is longer than the text by the errors.
      have lengths := congrArg List.length same
      have atLeast := stretched.1
      simp only [List.length_append, List.length_cons, List.length_nil] at lengths
      omega
    | apart differ => exact DifferFromEnd.irrefl text differ
  · intro plain logger level event
    rw [LogFormatter.format, LogFormatter.init_items, ← output, output_of_notMem plain,
      List.nil_append]

/-- A single percent sign comes out with the text for a directive without a key. -/
theorem format_escape_percent :
    ¬ ∀ libc logger level event,
      (LogFormatter.init (escape ['%'])).format libc logger level event = some ['%'] := by
  -- The output is computed, and it is longer than one character.
  intro always
  have prints := always ⟨fun _ => none, fun _ _ => none⟩ markedLogger .unknow markedEvent
  have longer : (LogFormatter.init (escape ['%'])).format ⟨fun _ => none, fun _ _ => none⟩
      markedLogger .unknow markedEvent = some "%<<error_format %>>".toList := by decide +kernel
  exact absurd (longer.symm.trans prints) (by decide)

end SimpleSrv.Tiga
