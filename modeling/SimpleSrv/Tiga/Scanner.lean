import SimpleSrv.Tiga.LogFormatter

/-! The scanner of the log formatter, over what is left of a pattern instead of two cursors. -/

namespace SimpleSrv.Tiga

/-- The characters that do not end the key of a directive. -/
def isKeyChar (ch : Char) : Bool := ch.isAlpha || ch == '}'

/-- A directive that has been read, without its percent sign, and the text behind it. -/
structure Parsed where
  key : Text
  arg : Text
  rest : Text

/-- Read the directive whose percent sign stands before the text, unless its brace never closes. -/
def readDirective (text : Text) : Option Parsed :=
  let key := text.takeWhile isKeyChar
  match text.dropWhile isKeyChar with
  | '{' :: inner =>
    if '}' ∈ inner then
      some ⟨key, inner.takeWhile (· ≠ '}'), (inner.dropWhile (· ≠ '}')).tail⟩
    else none
  | rest => some ⟨key, [], rest⟩

/-- What is left behind a directive is no longer than what there was. -/
theorem readDirective_length {text : Text} {parsed : Parsed}
    (read : readDirective text = some parsed) : parsed.rest.length ≤ text.length := by
  -- Both ways of reading go on behind the key at the earliest.
  have dropped : (text.dropWhile isKeyChar).length ≤ text.length :=
    (List.dropWhile_sublist isKeyChar).length_le
  unfold readDirective at read
  split at read
  · rename_i inner brace
    split at read
    · -- The rest is shorter by the braces, their content and the key.
      obtain rfl := Option.some.inj read
      have inside := (List.dropWhile_sublist (l := inner) (· ≠ '}')).length_le
      rw [brace, List.length_cons] at dropped
      rw [List.length_tail]
      omega
    · cases read
  · obtain rfl := Option.some.inj read
    exact dropped

/-- Without text there is no key. -/
@[simp] theorem readDirective_nil : readDirective [] = some ⟨[], [], []⟩ := rfl

/-- One more character of the key. -/
theorem readDirective_key {ch : Char} (inKey : isKeyChar ch) (rest : Text) :
    readDirective (ch :: rest) =
      (readDirective rest).map fun parsed => { parsed with key := ch :: parsed.key } := by
  -- What is dropped behind the key does not depend on how long the key is.
  simp only [readDirective, List.takeWhile_cons, List.dropWhile_cons, inKey, if_true]
  split
  · split <;> rfl
  · rfl

/-- The argument goes up to the first closing brace. -/
theorem readDirective_brace (inner : Text) :
    readDirective ('{' :: inner) =
      if '}' ∈ inner then
        some ⟨[], inner.takeWhile (· ≠ '}'), (inner.dropWhile (· ≠ '}')).tail⟩
      else none :=
  rfl

/-- An argument without a closing brace is read up to the one behind it. -/
theorem readDirective_arg {arg : Text} (inside : '}' ∉ arg) (rest : Text) :
    readDirective ('{' :: (arg ++ '}' :: rest)) = some ⟨[], arg, rest⟩ := by
  -- Every character of the argument is passed on the way to the brace.
  have whole : ∀ ch ∈ arg, decide (ch ≠ '}') = true := by
    intro ch member
    have different : ch ≠ '}' := by
      rintro rfl
      exact inside member
    simpa using different
  rw [readDirective_brace, if_pos (by simp), List.takeWhile_append_of_pos whole,
    List.dropWhile_append_of_pos whole]
  simp

/-- Any other character ends the directive before it. -/
theorem readDirective_stop {ch : Char} (outside : ¬ isKeyChar ch) (plain : ch ≠ '{') (rest : Text) :
    readDirective (ch :: rest) = some ⟨[], [], ch :: rest⟩ := by
  -- The key is empty, and what stops it opens no argument.
  simp only [readDirective, List.takeWhile_cons, List.dropWhile_cons, outside]
  split
  · rename_i same
    exact absurd (List.cons.inj same).1 plain
  · rfl

/-- A step of the outer loop, in terms of what it finds in the pattern. -/
inductive Token where
  | char (ch : Char)
  | directive (key arg : Text)
  /-- A directive whose brace never closes. -/
  | unfinished
  deriving DecidableEq, Repr

/-- The steps of the outer loop for what is left of a pattern. -/
def tokens : Text → List Token
  | [] => []
  | ch :: rest =>
    if ch ≠ '%' then .char ch :: tokens rest
    else if rest.head? = some '%' then .char '%' :: tokens rest
    else
      match _read : readDirective rest with
      | some parsed => .directive parsed.key parsed.arg :: tokens parsed.rest
      | none => .unfinished :: tokens rest
termination_by text => text.length
decreasing_by
  · simp
  · simp
  · have shorter := readDirective_length _read
    simp only [List.length_cons]
    omega
  · simp

/-- The elements of `vec` that further steps add behind the collected literal text. -/
def assemble (nstr : Text) : List Token → List Entry
  | [] => pushText [] nstr
  | .char ch :: rest => assemble (nstr ++ [ch]) rest
  | .directive key arg :: rest => pushText [] nstr ++ ⟨key, arg, 1⟩ :: assemble [] rest
  | .unfinished :: rest => ⟨patternError, [], 0⟩ :: assemble nstr rest

/-- There is nothing to scan in an empty text. -/
@[simp] theorem tokens_nil : tokens [] = [] := by
  rw [tokens]

/-- Any character but a percent sign stands for itself. -/
theorem tokens_char {ch : Char} (plain : ch ≠ '%') (rest : Text) :
    tokens (ch :: rest) = .char ch :: tokens rest := by
  rw [tokens, if_pos plain]

/-- The first of two percent signs stands for itself, and the second one is looked at again. -/
theorem tokens_pair (rest : Text) :
    tokens ('%' :: '%' :: rest) = .char '%' :: tokens ('%' :: rest) := by
  rw [tokens, if_neg (by decide), if_pos List.head?_cons]

/-- A directive is read as a whole. -/
theorem tokens_directive {rest : Text} {parsed : Parsed} (single : rest.head? ≠ some '%')
    (read : readDirective rest = some parsed) :
    tokens ('%' :: rest) = .directive parsed.key parsed.arg :: tokens parsed.rest := by
  -- The match on the directive is the one that has been read.
  rw [tokens, if_neg (by decide), if_neg single]
  split
  · rename_i other read'
    obtain rfl := Option.some.inj (read'.symm.trans read)
    rfl
  · rename_i failed
    cases failed.symm.trans read

/-- Behind the percent sign of an unfinished directive, the scanner starts anew. -/
theorem tokens_unfinished {rest : Text} (single : rest.head? ≠ some '%')
    (read : readDirective rest = none) : tokens ('%' :: rest) = .unfinished :: tokens rest := by
  -- The match on the directive is the failed one.
  rw [tokens, if_neg (by decide), if_neg single]
  split
  · rename_i read'
    cases read'.symm.trans read
  · rfl

/-- A text without percent signs stands for itself. -/
theorem tokens_literal {text : Text} (plain : '%' ∉ text) (rest : Text) :
    tokens (text ++ rest) = text.map .char ++ tokens rest := by
  -- The induction follows the characters, none of which begins a directive.
  induction text with
  | nil => rfl
  | cons ch text ih =>
    obtain ⟨different, others⟩ := List.ne_and_not_mem_of_not_mem_cons plain
    rw [List.cons_append, tokens_char (Ne.symm different), ih others]
    rfl

/-- Characters are collected as a whole. -/
theorem assemble_chars (nstr text : Text) (rest : List Token) :
    assemble nstr (text.map .char ++ rest) = assemble (nstr ++ text) rest := by
  -- The collected text is generalised, as each character is added behind it.
  induction text generalizing nstr with
  | nil => simp
  | cons ch text ih =>
    rw [List.map_cons, List.cons_append, assemble, ih, List.append_assoc]
    rfl

/-- A cursor with text left is within the pattern, at the first character of that text. -/
theorem cursor {pattern : Text} {n : Nat} {ch : Char} {rest : Text}
    (left : pattern.drop n = ch :: rest) :
    ∃ inside : n < pattern.length, pattern[n] = ch ∧ pattern.drop (n + 1) = rest := by
  -- Past the end of the pattern there would be no text left.
  have inside : n < pattern.length := by
    by_contra outside
    rw [List.drop_of_length_le (Nat.le_of_not_lt outside)] at left
    cases left
  rw [List.drop_eq_getElem_cons inside, List.cons.injEq] at left
  exact ⟨inside, left⟩

/-- A cursor without text left is at the end of the pattern. -/
theorem cursor_end {pattern : Text} {n : Nat} (left : pattern.drop n = []) :
    ¬ n < pattern.length :=
  Nat.not_lt.mpr (List.drop_eq_nil_iff.mp left)

/-- The text up to a cursor grows by the character at the cursor. -/
theorem substr_next {pattern : Text} {first n : Nat} {ch : Char} {rest : Text}
    (left : pattern.drop n = ch :: rest) (behind : first < n) :
    substr pattern (first + 1) (n + 1 - first - 1) =
      substr pattern (first + 1) (n - first - 1) ++ [ch] := by
  -- The character at the cursor is the next one behind the text so far.
  obtain ⟨inside, here, _⟩ := cursor left
  have count : n + 1 - first - 1 = n - first - 1 + 1 := by omega
  have index : first + 1 + (n - first - 1) = n := by omega
  have present : (pattern.drop (first + 1))[n - first - 1]? = some ch := by
    rw [List.getElem?_drop, index, List.getElem?_eq_getElem inside, here]
  rw [substr, count, List.take_add_one, present]
  rfl

/-- Behind an opening brace, the inner loop looks for the first closing one. -/
theorem directiveLoop_arg {pattern : Text} {i first : Nat} :
    ∀ {text : Text} {n : Nat} (str : Text), pattern.drop n = text → first < n →
      let s := directiveLoop pattern i ⟨n, true, first, str, []⟩
      let arg := substr pattern (first + 1) (n - first - 1)
      if '}' ∈ text then
        s.fmtStatus = false ∧ s.str = str ∧ s.fmt = arg ++ text.takeWhile (· ≠ '}') ∧
          pattern.drop s.n = (text.dropWhile (· ≠ '}')).tail
      else s.fmtStatus = true ∧ s.fmt = []
  | [], n, str, left, _ => by
    -- At the end of the pattern the argument is still open.
    rw [directiveLoop, dif_neg (cursor_end left)]
    simp
  | ch :: rest, n, str, left, behind => by
    -- The round looks at the next character, and only a closing brace ends the loop.
    obtain ⟨inside, here, next⟩ := cursor left
    rw [directiveLoop, dif_pos inside]
    simp only [here, Bool.true_eq_false, false_and, if_false, true_and]
    by_cases closes : ch = '}'
    · simp [closes, next]
    · -- One more character belongs to the argument.
      rw [if_neg closes]
      have later := @directiveLoop_arg pattern i first rest (n + 1)
        (if n + 1 = pattern.length ∧ str = [] then substr pattern (i + 1) pattern.length else str)
        next (Nat.lt_succ_of_lt behind)
      rw [substr_next left behind] at later
      have differs : '}' ≠ ch := Ne.symm closes
      by_cases more : '}' ∈ rest
      · -- The pattern goes on, so that the key is not assigned again.
        have goes : n + 1 ≠ pattern.length := by
          intro ends
          rw [List.drop_of_length_le (Nat.le_of_eq ends.symm)] at next
          exact List.not_mem_nil (next ▸ more)
        simp only [goes, false_and, if_false, if_pos more] at later
        simpa [goes, more, closes] using later
      · -- No brace follows, so the rest of the loop does not find one either.
        rw [if_neg more] at later
        simpa [more, differs] using later

/-- What the inner loop leaves of a directive, the first characters of whose key are known. -/
def Directive.Agrees (s : Directive) (pattern key : Text) : Option Parsed → Prop
  | some parsed =>
    s.fmtStatus = false ∧ s.str = key ++ parsed.key ∧ s.fmt = parsed.arg ∧
      pattern.drop s.n = parsed.rest
  | none => s.fmtStatus = true ∧ s.fmt = []

/-- A key may be split anywhere. -/
theorem Directive.Agrees.shift {s : Directive} {pattern key : Text} {ch : Char}
    {result : Option Parsed} (agrees : s.Agrees pattern (key ++ [ch]) result) :
    s.Agrees pattern key (result.map fun parsed => { parsed with key := ch :: parsed.key }) := by
  -- Whether the key is split changes only where its first character is counted.
  cases result with
  | none => exact agrees
  | some parsed =>
    obtain ⟨status, str, fmt, rest⟩ := agrees
    exact ⟨status, by rw [str, List.append_assoc]; rfl, fmt, rest⟩

/-- The inner loop reads what `readDirective` does, from any place within the key. -/
theorem directiveLoop_key {pattern : Text} {i : Nat} :
    ∀ {text : Text} {n : Nat}, pattern.drop n = text → i < n →
      (directiveLoop pattern i
        ⟨n, false, 0, if text = [] then substr pattern (i + 1) (n - i - 1) else [], []⟩).Agrees
          pattern (substr pattern (i + 1) (n - i - 1)) (readDirective text)
  | [], n, left, _ => by
    -- At the end of the pattern the key is what has been passed.
    rw [directiveLoop, dif_neg (cursor_end left)]
    simp [readDirective, Directive.Agrees, left]
  | ch :: rest, n, left, behind => by
    -- The next character opens the argument, or belongs to the key, or ends the directive.
    obtain ⟨inside, here, next⟩ := cursor left
    rw [directiveLoop, dif_pos inside]
    simp only [here, if_neg (List.cons_ne_nil ch rest)]
    by_cases opens : ch = '{'
    · -- The rest of the loop looks for the closing brace.
      subst opens
      have arg := directiveLoop_arg (i := i) (substr pattern (i + 1) (n - i - 1)) next
        (Nat.lt_succ_self n)
      have none_yet : n + 1 - n - 1 = 0 := by omega
      simp only [none_yet, substr, List.take_zero, List.nil_append] at arg
      rw [if_neg (by simp), if_pos ⟨trivial, rfl⟩, readDirective_brace]
      by_cases closes : '}' ∈ rest
      · rw [if_pos closes] at arg ⊢
        simpa [Directive.Agrees, substr] using arg
      · rw [if_neg closes] at arg ⊢
        exact arg
    · by_cases inKey : isKeyChar ch
      · -- One more character belongs to the key, which the end of the pattern would assign.
        have goes : ¬ (¬ ch.isAlpha ∧ ch ≠ '{' ∧ ch ≠ '}') := by
          rintro ⟨letter, _, brace⟩
          simp [isKeyChar, letter, brace] at inKey
        have ends : n + 1 = pattern.length ↔ rest = [] := by
          rw [← next, List.drop_eq_nil_iff]
          omega
        have all : rest = [] → substr pattern (i + 1) pattern.length =
            substr pattern (i + 1) (n + 1 - i - 1) := by
          intro last
          have length := ends.mpr last
          rw [substr, substr, List.take_of_length_le, List.take_of_length_le] <;>
            rw [List.length_drop] <;> omega
        have key := @directiveLoop_key pattern i rest (n + 1) next (Nat.lt_succ_of_lt behind)
        rw [substr_next left behind] at all key
        rw [if_neg (fun stops => goes stops.2), if_neg (fun found => opens found.2),
          if_neg (by simp), readDirective_key inKey]
        refine Directive.Agrees.shift ?_
        by_cases last : rest = []
        · simpa [ends, last, all last] using key
        · simpa [ends, last] using key
      · -- Any other character ends the loop at once.
        have stops : ¬ ch.isAlpha ∧ ch ≠ '{' ∧ ch ≠ '}' := by
          simp only [isKeyChar, Bool.or_eq_true, beq_iff_eq, not_or] at inKey
          exact ⟨inKey.1, opens, inKey.2⟩
        rw [if_pos ⟨trivial, stops⟩, readDirective_stop inKey opens]
        exact ⟨rfl, (List.append_nil _).symm, rfl, left⟩

/-- Pushing a text appends to what has been pushed before. -/
theorem pushText_eq (vec : List Entry) (nstr : Text) :
    pushText vec nstr = vec ++ pushText [] nstr := by
  unfold pushText
  split <;> simp

/-- What the inner loop leaves of the directive at a percent sign. -/
theorem directiveLoop_start (pattern : Text) (i : Nat) :
    (directiveLoop pattern i (.start i)).Agrees pattern []
      (readDirective (pattern.drop (i + 1))) := by
  -- Right behind the percent sign the key is empty.
  have nothing : substr pattern (i + 1) (i + 1 - i - 1) = [] := by
    rw [Nat.add_sub_cancel_left, Nat.sub_self, substr, List.take_zero]
  have agrees := @directiveLoop_key pattern i _ (i + 1) rfl (Nat.lt_succ_self i)
  rw [nothing, ite_self] at agrees
  exact agrees

/-- From any place in the pattern, the outer loop appends what its steps add. -/
theorem initLoop_eq (pattern : Text) (i : Nat) (nstr : Text) (vec : List Entry) :
    initLoop pattern i nstr vec = vec ++ assemble nstr (tokens (pattern.drop i)) := by
  -- The induction follows the rounds of the outer loop.
  fun_induction initLoop pattern i nstr vec with
  | case1 i nstr vec inside plain ih =>
    -- A plain character is collected.
    rw [ih, List.drop_eq_getElem_cons inside, tokens_char plain, assemble]
  | case2 i nstr vec inside percent pair ih =>
    have same := Decidable.not_not.mp percent
    -- The first of two percent signs is collected, and the second one stays.
    obtain ⟨inside', same'⟩ := List.getElem?_eq_some_iff.mp pair
    rw [ih, List.drop_eq_getElem_cons inside, same, List.drop_eq_getElem_cons inside', same',
      tokens_pair, assemble]
  -- The inner loop has closed the directive that it reports.
  | case3 i nstr vec inside percent single s status ih =>
    have same := Decidable.not_not.mp percent
    have agrees : s.Agrees pattern [] _ := directiveLoop_start pattern i
    have single' : (pattern.drop (i + 1)).head? ≠ some '%' := by
      rwa [List.head?_drop]
    have ahead : i + 1 ≤ s.n := directiveLoop_n pattern i (.start i)
    rw [ih, List.drop_eq_getElem_cons inside, same, Nat.sub_add_cancel (by omega)]
    cases read : readDirective (pattern.drop (i + 1)) with
    | none =>
      rw [read] at agrees
      cases status.symm.trans agrees.1
    | some parsed =>
      rw [read] at agrees
      obtain ⟨_, str, fmt, rest⟩ := agrees
      rw [tokens_directive single' read, str, fmt, rest, pushText_eq vec, List.nil_append, assemble]
      simp
  -- The inner loop has run to the end of the pattern inside an argument.
  | case4 i nstr vec inside percent single s status ih =>
    have same := Decidable.not_not.mp percent
    have agrees : s.Agrees pattern [] _ := directiveLoop_start pattern i
    have single' : (pattern.drop (i + 1)).head? ≠ some '%' := by
      rwa [List.head?_drop]
    rw [ih, List.drop_eq_getElem_cons inside, same]
    cases read : readDirective (pattern.drop (i + 1)) with
    | none =>
      rw [read] at agrees
      rw [tokens_unfinished single' read, agrees.2, assemble]
      simp
    | some parsed =>
      rw [read] at agrees
      exact absurd agrees.1 status
  | case5 i nstr vec outside =>
    rw [List.drop_of_length_le (Nat.le_of_not_lt outside), tokens_nil, assemble, pushText_eq]

/-- The items of a formatter are those that the steps through its pattern add. -/
theorem LogFormatter.init_items (pattern : Text) :
    (LogFormatter.init pattern).items = (assemble [] (tokens pattern)).map Entry.item := by
  -- The constructor runs the outer loop from the start with nothing collected.
  simp only [LogFormatter.init, initLoop_eq, List.nil_append, List.drop_zero]

end SimpleSrv.Tiga
