import Mathlib.Data.List.Chain
import SimpleSrv.Tiga.Scanner

/-! The pattern language of the log formatter, which accepts every arrangement of its segments. -/

namespace SimpleSrv.Tiga

/-- A part of a pattern. -/
inductive Segment where
  | literal (text : Text)
  /-- A directive, with what its braces enclose if it has any. -/
  | directive (key : Text) (arg : Option Text)
  deriving DecidableEq, Repr

namespace Segment

/-- How a segment is written. -/
def text : Segment → Text
  | literal text => text
  | directive key none => '%' :: key
  | directive key (some arg) => '%' :: (key ++ '{' :: (arg ++ ['}']))

/-- A literal has no percent sign, a key consists of letters, and an argument has no end inside. -/
def Valid : Segment → Prop
  | literal text => text ≠ [] ∧ '%' ∉ text
  | directive key arg =>
    key ≠ [] ∧ (∀ ch ∈ key, ch.isAlpha = true) ∧ ∀ inner, arg = some inner → '}' ∉ inner

instance : (segment : Segment) → Decidable segment.Valid
  | literal text => inferInstanceAs (Decidable (text ≠ [] ∧ '%' ∉ text))
  | directive key arg =>
    -- The letters of the key are tested one by one, and not all the letters there are.
    have : Decidable (∀ ch ∈ key, ch.isAlpha = true) := List.decidableBAll _ key
    inferInstanceAs (Decidable (key ≠ [] ∧ (∀ ch ∈ key, ch.isAlpha = true) ∧ ∀ inner ∈ arg, _))

/-- A literal does not go on with the key of the directive before it. -/
def Apart : Segment → Segment → Prop
  | directive _ none, literal (ch :: _) => ¬ ch.isAlpha ∧ ch ≠ '{' ∧ ch ≠ '}'
  | _, _ => True

instance : (first second : Segment) → Decidable (first.Apart second)
  | directive _ none, literal (ch :: _) =>
    inferInstanceAs (Decidable (¬ ch.isAlpha ∧ ch ≠ '{' ∧ ch ≠ '}'))
  | directive _ none, literal [] | directive _ none, directive _ _ | directive _ (some _), _
  | literal _, _ => .isTrue trivial

/-- Put a segment before others, where two literals become one. -/
def join : Segment → List Segment → List Segment
  | literal first, literal second :: rest => literal (first ++ second) :: rest
  | segment, rest => segment :: rest

/-- The item that a segment stands for. -/
def item : Segment → FormatItem
  | literal text => .string text
  | directive key arg =>
    match formatItemTable.lookup key with
    | none => .string (errorFormat key)
    | some construct => construct (arg.getD [])

/-- The element of `vec` that a segment stands for. -/
def entry : Segment → Entry
  | literal text => ⟨text, [], 0⟩
  | directive key arg => ⟨key, arg.getD [], 1⟩

/-- An element of `vec` and its segment stand for the same item. -/
theorem entry_item (segment : Segment) : segment.entry.item = segment.item := by
  cases segment <;> rfl

end Segment

/-- The segments with adjacent literals merged. -/
def merged (segments : List Segment) : List Segment := segments.foldr Segment.join []

/-- A pattern that is well formed. -/
structure Pattern where
  segments : List Segment
  valid : ∀ segment ∈ segments, segment.Valid
  apart : segments.IsChain Segment.Apart

/-- How a pattern is written. -/
def Pattern.text (pattern : Pattern) : Text := pattern.segments.flatMap Segment.text

/-- The items that a pattern stands for. -/
def Pattern.items (pattern : Pattern) : List FormatItem :=
  (merged pattern.segments).map Segment.item

/-- Put collected literal text before segments. -/
def withText (nstr : Text) (segments : List Segment) : List Segment :=
  if nstr = [] then segments else Segment.join (.literal nstr) segments

/-- Literal text before a literal is collected with it. -/
theorem withText_literal {text : Text} (filled : text ≠ []) (nstr : Text)
    (segments : List Segment) :
    withText nstr (Segment.join (.literal text) segments) = withText (nstr ++ text) segments := by
  -- Collected text and a literal become one literal, whatever follows.
  unfold withText
  by_cases empty : nstr = []
  · simp [empty, filled]
  · cases segments with
    | nil => simp [empty, Segment.join]
    | cons segment rest => cases segment <;> simp [empty, Segment.join]

/-- Literal text before a directive stays on its own. -/
theorem withText_directive (nstr key : Text) (arg : Option Text) (segments : List Segment) :
    (withText nstr (.directive key arg :: segments)).map Segment.entry =
      pushText [] nstr ++ (Segment.directive key arg :: segments).map Segment.entry := by
  -- A directive does not take the text into itself.
  unfold withText pushText
  split <;> simp [Segment.join, Segment.entry]

/-- The letters of a key are read one by one. -/
theorem readDirective_letters {key : Text} (letters : ∀ ch ∈ key, ch.isAlpha = true) (rest : Text) :
    readDirective (key ++ rest) =
      (readDirective rest).map fun parsed => { parsed with key := key ++ parsed.key } := by
  -- The induction follows the key, whose letters do not end it.
  induction key with
  | nil => simp
  | cons ch key ih =>
    have inKey : isKeyChar ch := by
      simp [isKeyChar, letters ch List.mem_cons_self]
    rw [List.cons_append, readDirective_key inKey,
      ih fun other member => letters other (List.mem_cons_of_mem ch member), Option.map_map]
    rfl

/-- A text ends where another segment could begin. -/
def Boundary (tail : Text) : Prop := tail = [] ∨ tail.head? = some '%'

/-- At a boundary, there is nothing more of a key. -/
theorem readDirective_boundary {tail : Text} (boundary : Boundary tail) :
    readDirective tail = some ⟨[], [], tail⟩ := by
  -- A percent sign is no part of a key, and opens no argument.
  rcases boundary with rfl | percent
  · rfl
  · obtain ⟨rest, rfl⟩ := List.head?_eq_some_iff.mp percent
    exact readDirective_stop (by decide) (by decide) rest

/-- A key without an argument ends where the next segment begins. -/
theorem readDirective_bare {key tail : Text} {segments : List Segment}
    (chain : (Segment.directive key none :: segments).IsChain Segment.Apart)
    (valid : ∀ segment ∈ segments, segment.Valid) (boundary : Boundary tail) :
    readDirective (segments.flatMap Segment.text ++ tail) =
      some ⟨[], [], segments.flatMap Segment.text ++ tail⟩ := by
  -- What may follow a key without an argument is what `Apart` permits.
  cases segments with
  | nil => exact readDirective_boundary boundary
  | cons segment rest =>
    obtain ⟨apart, _⟩ := List.isChain_cons_cons.mp chain
    rw [List.flatMap_cons, List.append_assoc]
    cases segment with
    | literal text =>
      obtain ⟨filled, _⟩ := valid _ List.mem_cons_self
      obtain ⟨ch, text, rfl⟩ := List.exists_cons_of_ne_nil filled
      obtain ⟨letter, opens, closes⟩ := apart
      exact readDirective_stop (by simp [isKeyChar, letter, closes]) opens _
    | directive key arg =>
      -- The percent sign of the next directive is no part of a key.
      cases arg <;> exact readDirective_boundary (.inr rfl)

/-- The steps of the outer loop through a segment. -/
def Segment.tokens : Segment → List Token
  | .literal text => text.map .char
  | .directive key arg => [.directive key (arg.getD [])]

/-- The outer loop goes through a pattern segment by segment, and then through what follows. -/
theorem tokens_segments {segments : List Segment} {tail : Text}
    (valid : ∀ segment ∈ segments, segment.Valid) (apart : segments.IsChain Segment.Apart)
    (boundary : Boundary tail) :
    tokens (segments.flatMap Segment.text ++ tail) =
      segments.flatMap Segment.tokens ++ tokens tail := by
  -- The induction follows the segments, each of which is read up to the next.
  induction segments with
  | nil => rfl
  | cons segment rest ih =>
    have here := valid segment List.mem_cons_self
    have others : ∀ other ∈ rest, other.Valid := fun other member =>
      valid other (List.mem_cons_of_mem segment member)
    have ih := ih others (List.isChain_cons.mp apart).2
    rw [List.flatMap_cons, List.flatMap_cons, List.append_assoc, List.append_assoc, ← ih]
    cases segment with
    | literal text =>
      -- A literal has no percent sign, so it is collected as a whole.
      obtain ⟨_, plain⟩ := here
      exact tokens_literal plain _
    | directive key arg =>
      -- A key is not empty, so its percent sign is a single one.
      obtain ⟨filled, letters, inside⟩ := here
      have single : ∀ more : Text, (key ++ more).head? ≠ some '%' := by
        intro more percent
        obtain ⟨ch, key, rfl⟩ := List.exists_cons_of_ne_nil filled
        obtain rfl : ch = '%' := by simpa using percent
        exact absurd (letters '%' List.mem_cons_self) (by decide)
      cases arg with
      | none =>
        have read : readDirective (key ++ (rest.flatMap Segment.text ++ tail)) =
            some ⟨key, [], rest.flatMap Segment.text ++ tail⟩ := by
          rw [readDirective_letters letters, readDirective_bare apart others boundary]
          simp
        rw [Segment.text, List.cons_append, tokens_directive (single _) read]
        rfl
      | some arg =>
        have read :
            readDirective (key ++ '{' :: (arg ++ '}' :: (rest.flatMap Segment.text ++ tail))) =
              some ⟨key, arg, rest.flatMap Segment.text ++ tail⟩ := by
          rw [readDirective_letters letters, readDirective_arg (inside arg rfl)]
          simp
        have written : (Segment.directive key (some arg)).text ++
            (rest.flatMap Segment.text ++ tail) =
              '%' :: (key ++ '{' :: (arg ++ '}' :: (rest.flatMap Segment.text ++ tail))) := by
          simp [Segment.text]
        rw [written, tokens_directive (single _) read]
        rfl

/-- The outer loop goes through a whole pattern segment by segment. -/
theorem tokens_pattern (pattern : Pattern) :
    tokens pattern.text = pattern.segments.flatMap Segment.tokens := by
  -- Nothing follows the last segment.
  simpa [Pattern.text] using tokens_segments pattern.valid pattern.apart (.inl rfl)

/-- The steps through segments add exactly these, with adjacent literals merged. -/
theorem assemble_segments {segments : List Segment} (valid : ∀ segment ∈ segments, segment.Valid)
    (nstr : Text) :
    assemble nstr (segments.flatMap Segment.tokens) =
      (withText nstr (merged segments)).map Segment.entry := by
  -- The induction carries the literal text that has been collected so far.
  induction segments generalizing nstr with
  | nil =>
    rw [List.flatMap_nil, assemble]
    unfold withText pushText merged
    split <;> rfl
  | cons segment rest ih =>
    have ih := ih fun other member => valid other (List.mem_cons_of_mem segment member)
    rw [List.flatMap_cons, merged, List.foldr_cons, ← merged]
    cases segment with
    | literal text =>
      -- A literal joins the text that has been collected.
      obtain ⟨filled, _⟩ := valid _ List.mem_cons_self
      rw [Segment.tokens, assemble_chars, ih, withText_literal filled]
    | directive key arg =>
      -- A directive pushes that text, and begins with none.
      have alone : Segment.join (.directive key arg) (merged rest) =
          .directive key arg :: merged rest := rfl
      have continued : assemble [] (rest.flatMap Segment.tokens) =
          (merged rest).map Segment.entry := ih []
      rw [alone, withText_directive, List.map_cons, ← continued]
      rfl

/-- A formatter has exactly the items of the pattern that it is built from. -/
theorem LogFormatter.init_pattern (pattern : Pattern) :
    (LogFormatter.init pattern.text).items = pattern.items := by
  -- The steps of the scanner are those of the segments, and so are the elements they add.
  have entries : assemble [] (pattern.segments.flatMap Segment.tokens) =
      (merged pattern.segments).map Segment.entry := assemble_segments pattern.valid []
  rw [LogFormatter.init_items, tokens_pattern, entries, List.map_map, Pattern.items]
  exact List.map_congr_left fun segment _ => segment.entry_item

/-- Every key that there is, an unknown one, and an argument with an opening brace. -/
def everyKey : Pattern where
  segments :=
    [.literal ['a'], .directive ['m'] none, .directive ['p'] none, .directive ['r'] none,
      .literal ['-'], .literal [' '], .directive ['c'] none, .directive ['t'] none,
      .directive ['n'] none, .directive ['d'] none, .directive ['d'] (some "%Y\x7b".toList),
      .directive ['f'] (some []), .literal ['b'], .directive ['l'] none, .directive ['T'] none,
      .directive ['F'] none, .directive ['q', 'q'] (some ['x'])]
  valid := by decide +kernel
  apart := by decide +kernel

/-- All items come out as the table has them, and the unknown key as its error. -/
theorem init_everyKey :
    (LogFormatter.init
      "a%m%p%r- %c%t%n%d%d\x7b%Y\x7b\x7d%f\x7b\x7db%l%T%F%qq\x7bx\x7d".toList).items =
      [.string ['a'], .message, .level, .elapse, .string ['-', ' '], .name, .threadId, .newLine,
        .dateTime "%Y-%m-%d %H:%M:%S".toList, .dateTime "%Y\x7b".toList, .filename,
        .string ['b'], .line, .tab, .fiberId, .string "<<error_format %qq>>".toList] := by
  -- The pattern is written like this, and its items are computed.
  have written : everyKey.text =
      "a%m%p%r- %c%t%n%d%d\x7b%Y\x7b\x7d%f\x7b\x7db%l%T%F%qq\x7bx\x7d".toList := by
    decide +kernel
  rw [← written, LogFormatter.init_pattern]
  decide +kernel

end SimpleSrv.Tiga
