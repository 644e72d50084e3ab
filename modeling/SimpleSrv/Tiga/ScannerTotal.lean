import SimpleSrv.Tiga.LogFormatter

/-! The scanner with each access and each `size_t` checked: it never faults, and always ends. -/

namespace SimpleSrv.Tiga

/-- What can go wrong in `LogFormatter::init`. -/
inductive Fault where
  /-- A `size_t` would get too large. -/
  | overflow
  /-- A `size_t` would get negative. -/
  | underflow
  /-- A character is read behind the end. -/
  | outOfBounds
  /-- `substr` throws. -/
  | outOfRange
  /-- A loop has not come to its end after the given number of rounds. -/
  | unfinished
  deriving DecidableEq, Repr

/-- `SIZE_MAX`. -/
def sizeMax : Nat := 0xffffffffffffffff

/-- `m_pattern`, whose length is a `size_t`. -/
structure PatternText where
  text : Text
  addressable : text.length ≤ sizeMax

namespace PatternText

/-- `m_pattern.size()`. -/
abbrev size (pattern : PatternText) : Nat := pattern.text.length

/-- `m_pattern[k]`. -/
def charAt (pattern : PatternText) (k : Nat) : Except Fault Char :=
  match pattern.text[k]? with
  | some ch => .ok ch
  | none => .error .outOfBounds

/-- `m_pattern.substr(pos, count)`. -/
def substr (pattern : PatternText) (pos count : Nat) : Except Fault Text :=
  if pos ≤ pattern.size then .ok (Tiga.substr pattern.text pos count) else .error .outOfRange

end PatternText

/-- `n + 1` in a `size_t`. -/
def SizeT.succ (n : Nat) : Except Fault Nat :=
  if n + 1 ≤ sizeMax then .ok (n + 1) else .error .overflow

/-- `n - m` in a `size_t`. -/
def SizeT.sub (n m : Nat) : Except Fault Nat :=
  if m ≤ n then .ok (n - m) else .error .underflow

/-- `m_pattern.substr(first + 1, n - first - 1)`. -/
def PatternText.between (pattern : PatternText) (first n : Nat) : Except Fault Text := do
  let pos ← SizeT.succ first
  let distance ← SizeT.sub n first
  let count ← SizeT.sub distance 1
  pattern.substr pos count

/-- One round of the inner loop for the directive at `i`, and whether the loop goes on. -/
def innerRound (pattern : PatternText) (i : Nat) (s : Directive) :
    Except Fault (Directive × Bool) := do
  let ch ← pattern.charAt s.n
  if s.fmtStatus = false ∧ (¬ ch.isAlpha ∧ ch ≠ '{' ∧ ch ≠ '}') then
    let str ← pattern.between i s.n
    return ({ s with str := str }, false)
  else if s.fmtStatus = false ∧ ch = '{' then
    let str ← pattern.between i s.n
    let n ← SizeT.succ s.n
    return ({ s with str := str, fmtStatus := true, fmtBegin := s.n, n := n }, true)
  else if s.fmtStatus = true ∧ ch = '}' then
    let fmt ← pattern.between s.fmtBegin s.n
    let n ← SizeT.succ s.n
    return ({ s with fmt := fmt, fmtStatus := false, n := n }, false)
  else
    let n ← SizeT.succ s.n
    if n = pattern.size ∧ s.str = [] then
      let pos ← SizeT.succ i
      let str ← pattern.substr pos pattern.size
      return ({ s with n := n, str := str }, true)
    else return ({ s with n := n }, true)

/-- The inner loop, for a number of rounds at most. -/
def innerLoop (pattern : PatternText) (i : Nat) : Nat → Directive → Except Fault Directive
  | 0, s => if s.n < pattern.size then .error .unfinished else .ok s
  | rounds + 1, s =>
    if s.n < pattern.size then do
      let (t, more) ← innerRound pattern i s
      if more then innerLoop pattern i rounds t else return t
    else .ok s

/-- The variables of the outer loop. -/
structure Scan where
  i : Nat := 0
  nstr : Text := []
  vec : List Entry := []

/-- Whether the percent sign at `i` is followed by another one. -/
def PatternText.doubled (pattern : PatternText) (i : Nat) : Except Fault Bool := do
  let peek ← SizeT.succ i
  if peek < pattern.size then
    let ch ← pattern.charAt peek
    return ch = '%'
  else return false

/-- The rest of a round of the outer loop, from the directive at its cursor on. -/
def directiveRound (pattern : PatternText) (s : Scan) : Except Fault Scan := do
  let n ← SizeT.succ s.i
  let d ← innerLoop pattern s.i pattern.size ⟨n, false, 0, [], []⟩
  if d.fmtStatus = false then
    let back ← SizeT.sub d.n 1
    let i ← SizeT.succ back
    return { nstr := [], vec := pushText s.vec s.nstr ++ [⟨d.str, d.fmt, 1⟩], i := i }
  else
    -- The message on the standard output shows the rest of the pattern.
    let _ ← pattern.substr s.i pattern.size
    let i ← SizeT.succ s.i
    return { s with vec := s.vec ++ [⟨patternError, d.fmt, 0⟩], i := i }

/-- One round of the outer loop, its `++i` included. -/
def outerRound (pattern : PatternText) (s : Scan) : Except Fault Scan := do
  let ch ← pattern.charAt s.i
  if ch ≠ '%' then
    let i ← SizeT.succ s.i
    return { s with nstr := s.nstr ++ [ch], i := i }
  else
    let pair ← pattern.doubled s.i
    if pair then
      let i ← SizeT.succ s.i
      return { s with nstr := s.nstr ++ ['%'], i := i }
    else directiveRound pattern s

/-- The outer loop, for a number of rounds at most. -/
def outerLoop (pattern : PatternText) : Nat → Scan → Except Fault Scan
  | 0, s => if s.i < pattern.size then .error .unfinished else .ok s
  | rounds + 1, s =>
    if s.i < pattern.size then do
      let t ← outerRound pattern s
      outerLoop pattern rounds t
    else .ok s

/-- `LogFormatter::init`, where no loop needs more rounds than the pattern has characters. -/
def checkedInit (pattern : PatternText) : Except Fault LogFormatter := do
  let s ← outerLoop pattern pattern.size {}
  return ⟨(pushText s.vec s.nstr).map Entry.item⟩

/-- The cursor is behind the directive and not behind the pattern, nor before an open brace. -/
structure Directive.Within (pattern : PatternText) (i : Nat) (s : Directive) : Prop where
  after : i < s.n
  inside : s.n ≤ pattern.size
  opened : s.fmtStatus = true → s.fmtBegin < s.n

section Checks

variable {pattern : PatternText}

/-- A step without a fault hands its value on. -/
theorem ok_bind {α β : Type} (value : α) (rest : α → Except Fault β) :
    (Except.ok value >>= rest) = rest value := rfl

/-- A character of the pattern can be read. -/
theorem PatternText.charAt_eq {k : Nat} (within : k < pattern.size) :
    pattern.charAt k = .ok (pattern.text[k]) := by
  unfold PatternText.charAt
  rw [List.getElem?_eq_getElem within]

/-- A part of the pattern can be taken from any position up to its end. -/
theorem PatternText.substr_eq {pos : Nat} (within : pos ≤ pattern.size) (count : Nat) :
    pattern.substr pos count = .ok (Tiga.substr pattern.text pos count) :=
  if_pos within

/-- The position behind a character of the pattern is a `size_t`. -/
theorem SizeT.succ_eq {n : Nat} (within : n < pattern.size) : SizeT.succ n = .ok (n + 1) := by
  -- The length of the pattern is one, and is not passed.
  have addressable : pattern.size ≤ sizeMax := pattern.addressable
  exact if_pos (by omega)

/-- A difference that is not negative is a `size_t`. -/
theorem SizeT.sub_eq {n m : Nat} (order : m ≤ n) : SizeT.sub n m = .ok (n - m) := if_pos order

/-- The text between two positions of the pattern can be taken. -/
theorem PatternText.between_eq {first n : Nat} (order : first < n) (within : n ≤ pattern.size) :
    pattern.between first n = .ok (Tiga.substr pattern.text (first + 1) (n - first - 1)) := by
  -- Both positions are within the pattern, so no sum or difference wraps around.
  unfold PatternText.between
  have inside : first < pattern.size := by omega
  rw [SizeT.succ_eq inside, ok_bind, SizeT.sub_eq (by omega), ok_bind, SizeT.sub_eq (by omega),
    ok_bind]
  exact PatternText.substr_eq (by omega) _

variable {i : Nat} {s : Directive}

/--
A round of the inner loop has no fault, and does what the loop without checks does.

It goes on with a cursor that has advanced, or it ends with what that loop ends with.
-/
theorem innerRound_eq (within : s.Within pattern i) (inside : s.n < pattern.size) :
    ∃ t more, innerRound pattern i s = .ok (t, more) ∧ t.Within pattern i ∧
      (more = true → t.n = s.n + 1 ∧
        directiveLoop pattern.text i s = directiveLoop pattern.text i t) ∧
      (more = false → directiveLoop pattern.text i s = t) := by
  have after := within.after
  have unfolded := directiveLoop.eq_def pattern.text i s
  rw [dif_pos inside] at unfolded
  dsimp only at unfolded
  have key := PatternText.between_eq within.after within.inside
  have step := SizeT.succ_eq inside
  unfold innerRound
  rw [PatternText.charAt_eq inside, ok_bind, unfolded]
  -- The branches are those of the round, in the order in which it tests for them.
  by_cases stops : s.fmtStatus = false ∧
      (¬ (pattern.text[s.n]).isAlpha ∧ pattern.text[s.n] ≠ '{' ∧
        pattern.text[s.n] ≠ '}')
  · rw [if_pos stops, if_pos stops, key, ok_bind]
    refine ⟨_, false, rfl, ⟨after, within.inside, within.opened⟩, ?_, fun _ => rfl⟩
    exact fun absurd => by cases absurd
  rw [if_neg stops, if_neg stops]
  by_cases opens : s.fmtStatus = false ∧ pattern.text[s.n] = '{'
  · rw [if_pos opens, if_pos opens, key, ok_bind, step, ok_bind]
    refine ⟨_, true, rfl, ⟨Nat.lt_succ_of_lt after, inside, fun _ => Nat.lt_succ_self _⟩, ?_, ?_⟩
    · exact fun _ => ⟨rfl, rfl⟩
    · exact fun absurd => by cases absurd
  rw [if_neg opens, if_neg opens]
  by_cases closes : s.fmtStatus = true ∧ pattern.text[s.n] = '}'
  · -- The brace was opened behind the directive, so its argument can be taken.
    rw [if_pos closes, if_pos closes, PatternText.between_eq (within.opened closes.1) within.inside,
      ok_bind, step, ok_bind]
    refine ⟨_, false, rfl, ⟨Nat.lt_succ_of_lt after, inside, fun absurd => by cases absurd⟩, ?_,
      fun _ => rfl⟩
    exact fun absurd => by cases absurd
  rw [if_neg closes, if_neg closes, step, ok_bind]
  have opened : s.fmtStatus = true → s.fmtBegin < s.n + 1 := fun status =>
    Nat.lt_succ_of_lt (within.opened status)
  by_cases ends : s.n + 1 = pattern.size ∧ s.str = []
  · rw [if_pos ends, SizeT.succ_eq (Nat.lt_trans after inside), ok_bind,
      PatternText.substr_eq (by omega), ok_bind]
    refine ⟨_, true, rfl, ⟨Nat.lt_succ_of_lt after, inside, opened⟩, fun _ => ⟨rfl, ?_⟩, ?_⟩
    · rw [if_pos ends]
    · exact fun absurd => by cases absurd
  · rw [if_neg ends]
    refine ⟨_, true, rfl, ⟨Nat.lt_succ_of_lt after, inside, opened⟩, fun _ => ⟨rfl, ?_⟩, ?_⟩
    · rw [if_neg ends]
    · exact fun absurd => by cases absurd

/-- The inner loop ends without a fault, behind its directive and not behind the pattern. -/
theorem innerLoop_eq {rounds : Nat} (within : s.Within pattern i)
    (enough : pattern.size - s.n ≤ rounds) :
    innerLoop pattern i rounds s = .ok (directiveLoop pattern.text i s) ∧
      (directiveLoop pattern.text i s).Within pattern i := by
  -- Each round that goes on advances the cursor, so one round fewer is enough for the rest.
  induction rounds generalizing s with
  | zero =>
    have past : ¬ s.n < pattern.size := by omega
    have unfolded := directiveLoop.eq_def pattern.text i s
    rw [dif_neg past] at unfolded
    rw [innerLoop, if_neg past, unfolded]
    exact ⟨rfl, within⟩
  | succ rounds ih =>
    by_cases inside : s.n < pattern.size
    · obtain ⟨t, more, round, kept, goes, stops⟩ := innerRound_eq within inside
      rw [innerLoop, if_pos inside, round, ok_bind]
      cases more with
      | true =>
        obtain ⟨next, same⟩ := goes rfl
        rw [same]
        exact ih kept (by omega)
      | false =>
        rw [stops rfl]
        exact ⟨rfl, kept⟩
    · have unfolded := directiveLoop.eq_def pattern.text i s
      rw [dif_neg inside] at unfolded
      rw [innerLoop, if_neg inside, unfolded]
      exact ⟨rfl, within⟩

/-- A directive starts behind its percent sign. -/
theorem Directive.start_within (inside : i < pattern.size) :
    (Directive.start i).Within pattern i where
  after := Nat.lt_succ_self i
  inside := inside
  opened := fun open_ => by cases open_

/-- A second percent sign is looked for within the pattern only. -/
theorem PatternText.doubled_eq (inside : i < pattern.size) :
    pattern.doubled i = .ok (decide (pattern.text[i + 1]? = some '%')) := by
  -- The next character is read only if there is one.
  unfold PatternText.doubled
  rw [SizeT.succ_eq inside, ok_bind]
  by_cases peek : i + 1 < pattern.size
  · rw [if_pos peek, PatternText.charAt_eq peek, ok_bind, List.getElem?_eq_getElem peek]
    simp only [Option.some.injEq]
    rfl
  · rw [if_neg peek, List.getElem?_eq_none (Nat.le_of_not_lt peek)]
    rfl

/-- A directive is read without a fault, and the cursor advances to its end or by one. -/
theorem directiveRound_eq {s : Scan} (inside : s.i < pattern.size)
    (percent : pattern.text[s.i] = '%') (single : pattern.text[s.i + 1]? ≠ some '%') :
    ∃ t, directiveRound pattern s = .ok t ∧ s.i < t.i ∧ t.i ≤ pattern.size ∧
      initLoop pattern.text s.i s.nstr s.vec = initLoop pattern.text t.i t.nstr t.vec := by
  have unfolded := initLoop.eq_def pattern.text s.i s.nstr s.vec
  rw [dif_pos inside, if_neg (fun plain => plain percent), if_neg single] at unfolded
  dsimp only at unfolded
  obtain ⟨loop, within⟩ :=
    innerLoop_eq (Directive.start_within inside) (Nat.sub_le pattern.size _)
  have after := within.after
  have bound := within.inside
  unfold directiveRound
  rw [SizeT.succ_eq inside, ok_bind, unfolded]
  show ∃ t, (innerLoop pattern s.i pattern.size (.start s.i) >>= _) = Except.ok t ∧ _
  rw [loop, ok_bind]
  by_cases closed : (directiveLoop pattern.text s.i (.start s.i)).fmtStatus = false
  · -- The cursor goes back by one to where the directive has ended, and advances again.
    have back : (directiveLoop pattern.text s.i (.start s.i)).n - 1 < pattern.size := by omega
    rw [if_pos closed, if_pos closed, SizeT.sub_eq (by omega), ok_bind, SizeT.succ_eq back, ok_bind]
    refine ⟨_, rfl, ?_, back, rfl⟩
    show s.i < (directiveLoop pattern.text s.i (.start s.i)).n - 1 + 1
    omega
  · rw [if_neg closed, if_neg closed, PatternText.substr_eq (Nat.le_of_lt inside), ok_bind,
      ok_bind]
    exact ⟨_, rfl, Nat.lt_succ_self _, inside, rfl⟩

/--
A round of the outer loop has no fault, and does what the loop without checks does.

It advances the cursor, and not beyond the end of the pattern.
-/
theorem outerRound_eq {s : Scan} (inside : s.i < pattern.size) :
    ∃ t, outerRound pattern s = .ok t ∧ s.i < t.i ∧ t.i ≤ pattern.size ∧
      initLoop pattern.text s.i s.nstr s.vec = initLoop pattern.text t.i t.nstr t.vec := by
  -- The unchecked loop is unfolded once, and followed along the same tests.
  have unfolded := initLoop.eq_def pattern.text s.i s.nstr s.vec
  rw [dif_pos inside] at unfolded
  unfold outerRound
  rw [PatternText.charAt_eq inside, ok_bind]
  -- A character that begins no directive is passed by itself.
  by_cases plain : pattern.text[s.i] ≠ '%'
  · rw [if_pos plain, SizeT.succ_eq inside, ok_bind, unfolded, if_pos plain]
    exact ⟨_, rfl, Nat.lt_succ_self _, inside, rfl⟩
  rw [if_neg plain, PatternText.doubled_eq inside, ok_bind]
  by_cases pair : pattern.text[s.i + 1]? = some '%'
  · rw [if_pos (decide_eq_true pair), SizeT.succ_eq inside, ok_bind, unfolded, if_neg plain,
      if_pos pair]
    exact ⟨_, rfl, Nat.lt_succ_self _, inside, rfl⟩
  rw [if_neg (by simpa using pair)]
  exact directiveRound_eq inside (Decidable.not_not.mp plain) pair

/-- The outer loop ends without a fault, with what the loop without checks returns. -/
theorem outerLoop_eq {rounds : Nat} {s : Scan} (enough : pattern.size - s.i ≤ rounds) :
    ∃ t, outerLoop pattern rounds s = .ok t ∧
      pushText t.vec t.nstr = initLoop pattern.text s.i s.nstr s.vec := by
  -- Each round advances the cursor, so one round fewer is enough for the rest.
  induction rounds generalizing s with
  | zero =>
    have past : ¬ s.i < pattern.size := by omega
    have unfolded := initLoop.eq_def pattern.text s.i s.nstr s.vec
    rw [dif_neg past] at unfolded
    rw [outerLoop, if_neg past, unfolded]
    exact ⟨s, rfl, rfl⟩
  | succ rounds ih =>
    by_cases inside : s.i < pattern.size
    · obtain ⟨t, round, advanced, _, same⟩ := outerRound_eq inside
      rw [outerLoop, if_pos inside, round, ok_bind, same]
      exact ih (by omega)
    · have unfolded := initLoop.eq_def pattern.text s.i s.nstr s.vec
      rw [dif_neg inside] at unfolded
      rw [outerLoop, if_neg inside, unfolded]
      exact ⟨s, rfl, rfl⟩

end Checks

/--
The scanner is total: its loops advance within every pattern, and end without a fault.

The inner loop ends with a cursor behind its directive and not behind the pattern, and each round
of the outer loop advances the outer cursor.
-/
theorem scanner_total (pattern : PatternText) :
    (∀ i < pattern.size, ∃ d, innerLoop pattern i pattern.size (.start i) = .ok d ∧
      i < d.n ∧ d.n ≤ pattern.size) ∧
    (∀ s : Scan, s.i < pattern.size → ∃ t, outerRound pattern s = .ok t ∧
      s.i < t.i ∧ t.i ≤ pattern.size) ∧
    checkedInit pattern = .ok (LogFormatter.init pattern.text) := by
  refine ⟨fun i inside => ?_, fun s inside => ?_, ?_⟩
  · obtain ⟨loop, within⟩ :=
      innerLoop_eq (Directive.start_within inside) (Nat.sub_le pattern.size _)
    exact ⟨_, loop, within.after, within.inside⟩
  · obtain ⟨t, round, advanced, bound, _⟩ := outerRound_eq inside
    exact ⟨t, round, advanced, bound⟩
  · obtain ⟨t, loop, same⟩ := outerLoop_eq (s := {}) (Nat.sub_le pattern.size _)
    unfold checkedInit LogFormatter.init
    rw [loop, ok_bind, same]
    rfl

/-- A pattern that ends inside of the braces of its second directive. -/
def openEnd : PatternText where
  text := "%m-%d\x7b%H".toList
  addressable := by decide

/-- The checked scanner reads it to its end, too. -/
theorem scanner_total_openEnd : ∃ formatter, checkedInit openEnd = .ok formatter ∧
    formatter.items =
      [.message, .string "<<pattern_error>>".toList, .string "-d\x7b".toList,
        .string "<<error_format %H>>".toList] :=
  ⟨_, (scanner_total openEnd).2.2, by decide +kernel⟩

end SimpleSrv.Tiga
