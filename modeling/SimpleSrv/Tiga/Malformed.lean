import SimpleSrv.Tiga.Patterns

/-! Directives whose brace never closes, and what they do to the text before them. -/

namespace SimpleSrv.Tiga

/-- An element of `vec`, with the number of the step whose text it begins with. -/
structure Located where
  start : Nat
  entry : Entry

/-- Push the literal text that has been collected since a step. -/
def locateText (first : Nat) (nstr : Text) : List Located :=
  if nstr = [] then [] else [⟨first, ⟨nstr, [], 0⟩⟩]

/-- The elements that `assemble` adds, where the next step has the number `pos`. -/
def locate (first pos : Nat) (nstr : Text) : List Token → List Located
  | [] => locateText first nstr
  | .char ch :: rest => locate (if nstr = [] then pos else first) (pos + 1) (nstr ++ [ch]) rest
  | .directive key arg :: rest =>
    locateText first nstr ++ ⟨pos, ⟨key, arg, 1⟩⟩ :: locate (pos + 1) (pos + 1) [] rest
  | .unfinished :: rest => ⟨pos, ⟨patternError, [], 0⟩⟩ :: locate first (pos + 1) nstr rest

/-- The numbers of the steps change nothing about the elements. -/
theorem locate_entries (first pos : Nat) (nstr : Text) (steps : List Token) :
    (locate first pos nstr steps).map Located.entry = assemble nstr steps := by
  -- A text is pushed under the same condition in both.
  have text (first : Nat) (nstr : Text) :
      (locateText first nstr).map Located.entry = pushText [] nstr := by
    unfold locateText pushText
    split <;> rfl
  induction steps generalizing first pos nstr with
  | nil => exact text first nstr
  | cons step rest ih =>
    cases step with
    | char ch => exact ih _ _ _
    | directive key arg => rw [locate, assemble, List.map_append, List.map_cons, text, ih]
    | unfinished => rw [locate, assemble, List.map_cons, ih]

/-- The items of a formatter are those of the elements, in their order. -/
theorem LogFormatter.init_located (pattern : Text) :
    (LogFormatter.init pattern).items =
      (locate 0 0 [] (tokens pattern)).map fun located => located.entry.item := by
  rw [LogFormatter.init_items, ← locate_entries 0 0, List.map_map]
  rfl

/-- A single text is in order with itself. -/
theorem locateText_pairwise (first : Nat) (nstr : Text) (r : Located → Located → Prop) :
    (locateText first nstr).Pairwise r := by
  -- At most one element is pushed.
  unfold locateText
  split
  · exact .nil
  · exact List.pairwise_singleton _ _

/-- No literal text comes behind an element for something that follows it in the pattern. -/
def InOrder (pattern : Text) : Prop :=
  (locate 0 0 [] (tokens pattern)).Pairwise fun earlier later =>
    later.entry.type = 0 → earlier.start < later.start

/-- No unfinished directive is met while literal text is pending. -/
def Orderly : Bool → List Token → Prop
  | _, [] => True
  | _, .char _ :: rest => Orderly true rest
  | _, .directive _ _ :: rest => Orderly false rest
  | pending, .unfinished :: rest => pending = false ∧ Orderly false rest

/-- Literal text begins where it was first collected. -/
theorem mem_locateText {first : Nat} {nstr : Text} {located : Located}
    (member : located ∈ locateText first nstr) : nstr ≠ [] ∧ located.start = first := by
  -- Only text that is not empty is pushed.
  unfold locateText at member
  split at member
  · cases member
  · rename_i filled
    obtain rfl := List.mem_singleton.mp member
    exact ⟨filled, rfl⟩

/-- Elements do not begin before the literal text that is pending. -/
theorem locate_start {bound first pos : Nat} {nstr : Text} {steps : List Token}
    (next : bound ≤ pos) (pending : nstr ≠ [] → bound ≤ first) :
    ∀ located ∈ locate first pos nstr steps, bound ≤ located.start := by
  -- The induction follows the steps, with the bound kept for what is pending.
  induction steps generalizing first pos nstr with
  | nil =>
    intro located member
    obtain ⟨filled, start⟩ := mem_locateText member
    exact start ▸ pending filled
  | cons step rest ih =>
    have next' : bound ≤ pos + 1 := Nat.le_succ_of_le next
    cases step with
    | char ch =>
      -- The text that is collected begins at this step, or before it.
      refine ih next' fun _ => ?_
      split
      · exact next
      · rename_i filled
        exact pending filled
    | directive key arg =>
      intro located member
      -- The pending text comes first, then the directive, and then what follows both.
      rcases List.mem_append.mp member with member | member
      · obtain ⟨filled, start⟩ := mem_locateText member
        exact start ▸ pending filled
      · rcases List.mem_cons.mp member with rfl | member
        · exact next
        · exact ih next' (fun _ => next') located member
    -- The error stands at this step, and the text stays pending.
    | unfinished =>
      intro located member
      rcases List.mem_cons.mp member with rfl | member
      · exact next
      · exact ih next' pending located member

/-- Pending literal text is pushed in the end. -/
theorem locate_pending {first pos : Nat} {nstr : Text} (filled : nstr ≠ []) (steps : List Token) :
    ∃ located ∈ locate first pos nstr steps, located.entry.type = 0 ∧ located.start = first := by
  -- The induction follows the steps, up to the one that pushes the text.
  induction steps generalizing pos nstr with
  | nil => exact ⟨⟨first, ⟨nstr, [], 0⟩⟩, by simp [locate, locateText, filled], rfl, rfl⟩
  | cons step rest ih =>
    cases step with
    | char ch =>
      -- The text grows, and still begins where it did.
      rw [locate, if_neg filled]
      exact ih (by simp)
    | directive key arg =>
      exact ⟨⟨first, ⟨nstr, [], 0⟩⟩, by simp [locate, locateText, filled], rfl, rfl⟩
    | unfinished =>
      obtain ⟨located, member, text, start⟩ := @ih (pos + 1) nstr filled
      exact ⟨located, List.mem_cons_of_mem _ member, text, start⟩

/-- Elements are in the order of the pattern unless an unfinished directive overtakes a text. -/
theorem locate_pairwise_iff {first pos : Nat} {nstr : Text} (behind : nstr = [] ∨ first < pos)
    (steps : List Token) :
    ((locate first pos nstr steps).Pairwise fun earlier later =>
      later.entry.type = 0 → earlier.start < later.start) ↔ Orderly (decide (nstr ≠ [])) steps := by
  -- The induction follows the steps, with the pending text generalised.
  induction steps generalizing first pos nstr with
  | nil =>
    rw [locate, Orderly, iff_true]
    exact locateText_pairwise _ _ _
  | cons step rest ih =>
    cases step with
    | char ch =>
      -- The text begins at this step or before it, so before the next one.
      have behind' : nstr ++ [ch] = [] ∨ (if nstr = [] then pos else first) < pos + 1 := by
        right
        split
        · exact Nat.lt_succ_self pos
        · rename_i filled
          exact Nat.lt_succ_of_lt (behind.resolve_left filled)
      have filled : decide (nstr ++ [ch] ≠ []) = true := by simp
      rw [locate, ih behind', filled, Orderly]
    | directive key arg =>
      -- What follows the directive begins behind it, as nothing is pending.
      have later : ∀ located ∈ locate (pos + 1) (pos + 1) [] rest, pos + 1 ≤ located.start :=
        locate_start (Nat.le_refl _) fun _ => Nat.le_refl _
      have continued := @ih (pos + 1) (pos + 1) [] (.inl rfl)
      have nothing : decide (([] : Text) ≠ []) = false := by decide
      rw [nothing] at continued
      rw [locate, Orderly, ← continued, List.pairwise_append, List.pairwise_cons]
      refine ⟨fun ordered => ordered.2.1.2,
        fun ordered => ⟨locateText_pairwise _ _ _, ⟨?_, ordered⟩, ?_⟩⟩
      · exact fun located member _ => later located member
      · intro earlier member located member' text
        obtain ⟨filled, start⟩ := mem_locateText member
        rw [start]
        rcases List.mem_cons.mp member' with rfl | member'
        · exact absurd text Nat.one_ne_zero
        · have after := later located member'
          have before := behind.resolve_left filled
          omega
    | unfinished =>
      rw [locate, Orderly, List.pairwise_cons, decide_eq_false_iff_not, not_not]
      by_cases empty : nstr = []
      · -- Without pending text the error is in its place.
        subst empty
        have later : ∀ located ∈ locate first (pos + 1) [] rest, pos + 1 ≤ located.start :=
          locate_start (Nat.le_refl _) fun filled => absurd rfl filled
        have continued := @ih first (pos + 1) [] (.inl rfl)
        have nothing : decide (([] : Text) ≠ []) = false := by decide
        rw [nothing] at continued
        rw [← continued]
        exact ⟨fun ordered => ⟨rfl, ordered.2⟩,
          fun ordered => ⟨fun located member _ => later located member, ordered.2⟩⟩
      · -- The pending text comes later, although it begins earlier.
        obtain ⟨located, member, text, start⟩ := @locate_pending first (pos + 1) nstr empty rest
        constructor
        · rintro ⟨before, _⟩
          have after : pos < located.start := before located member text
          have earlier := behind.resolve_left empty
          omega
        · rintro ⟨none, _⟩
          exact absurd none empty

/-- The elements of a formatter are in order exactly if its steps are orderly. -/
theorem inOrder_iff (pattern : Text) : InOrder pattern ↔ Orderly false (tokens pattern) :=
  locate_pairwise_iff (.inl rfl) (tokens pattern)

/-- A directive whose brace never closes, with what follows the brace. -/
structure Unclosed where
  key : Text
  rest : Text
  letters : ∀ ch ∈ key, ch.isAlpha = true
  unclosed : '}' ∉ rest

/-- How such a directive is written. -/
def Unclosed.text (unclosed : Unclosed) : Text := '%' :: (unclosed.key ++ '{' :: unclosed.rest)

/-- A key without a closing brace behind it is no complete directive. -/
theorem readDirective_unclosed {key rest : Text} (letters : ∀ ch ∈ key, ch.isAlpha = true)
    (unclosed : '}' ∉ rest) : readDirective (key ++ '{' :: rest) = none := by
  rw [readDirective_letters letters, readDirective_brace, if_neg unclosed]
  rfl

/-- There is no percent sign in a key with its brace. -/
theorem percent_notMem_key {key : Text} (letters : ∀ ch ∈ key, ch.isAlpha = true) :
    '%' ∉ key ++ ['{'] := by
  -- Neither a letter nor the brace is one.
  intro found
  rcases List.mem_append.mp found with member | member
  · exact absurd (letters '%' member) (by decide)
  · exact absurd (List.mem_singleton.mp member) (by decide)

/-- The scanner goes through the key and the brace of an unclosed directive again, as text. -/
theorem tokens_unclosed {key rest : Text} (letters : ∀ ch ∈ key, ch.isAlpha = true)
    (unclosed : '}' ∉ rest) :
    tokens ('%' :: (key ++ '{' :: rest)) =
      .unfinished :: ((key ++ ['{']).map .char ++ tokens rest) := by
  -- The sign stands alone, since the key and the brace have none.
  have plain := percent_notMem_key letters
  have split : key ++ '{' :: rest = key ++ ['{'] ++ rest := by simp
  have single : (key ++ '{' :: rest).head? ≠ some '%' := by
    intro percent
    rw [split] at percent
    refine plain (List.mem_of_head? (?_ : (key ++ ['{']).head? = some '%'))
    cases key <;> exact percent
  rw [tokens_unfinished single (readDirective_unclosed letters unclosed), split,
    tokens_literal plain]

/-- Characters make literal text pending. -/
theorem orderly_chars (pending : Bool) {text : Text} (filled : text ≠ []) (steps : List Token) :
    Orderly pending (text.map .char ++ steps) ↔ Orderly true steps := by
  -- The induction follows the text, which makes a difference from its first character on.
  induction text generalizing pending with
  | nil => exact absurd rfl filled
  | cons ch text ih =>
    rw [List.map_cons, List.cons_append, Orderly]
    cases text with
    | nil => exact Iff.rfl
    | cons other text => exact ih true (List.cons_ne_nil other text)

/-- Whether literal text is pending behind segments. -/
def pendingAfter (pending : Bool) : List Segment → Bool
  | [] => pending
  | .literal _ :: rest => pendingAfter true rest
  | .directive _ _ :: rest => pendingAfter false rest

/-- Segments are orderly, so that it depends on what follows them. -/
theorem orderly_segments {segments : List Segment} (valid : ∀ segment ∈ segments, segment.Valid)
    (pending : Bool) (steps : List Token) :
    Orderly pending (segments.flatMap Segment.tokens ++ steps) ↔
      Orderly (pendingAfter pending segments) steps := by
  -- The induction follows the segments, none of which is unfinished.
  induction segments generalizing pending with
  | nil => exact Iff.rfl
  | cons segment rest ih =>
    have ih := ih fun other member => valid other (List.mem_cons_of_mem segment member)
    rw [List.flatMap_cons, List.append_assoc]
    cases segment with
    | literal text =>
      obtain ⟨filled, _⟩ := valid _ List.mem_cons_self
      rw [Segment.tokens, orderly_chars pending filled, ih, pendingAfter]
    | directive key arg =>
      rw [Segment.tokens, List.singleton_append, Orderly, ih, pendingAfter]

/-- Text is pending behind segments that end with a literal, and behind no others. -/
theorem pendingAfter_eq_false (segments : List Segment) :
    pendingAfter false segments = false ↔ ∀ text, segments.getLast? ≠ some (.literal text) := by
  -- The last segment decides, whatever was pending before.
  induction segments using List.reverseRecOn with
  | nil => simp [pendingAfter]
  | append_singleton front last ih =>
    have general (pending : Bool) (segment : Segment) :
        pendingAfter pending (front ++ [segment]) = pendingAfter pending [segment] := by
      clear ih
      induction front generalizing pending with
      | nil => rfl
      | cons first front ih => cases first <;> cases segment <;> exact ih _
    rw [general]
    cases last <;> simp [pendingAfter]

/-- Steps behind a directive add elements of their own. -/
theorem assemble_directive (nstr : Text) (before steps : List Token) (key arg : Text) :
    assemble nstr (before ++ .directive key arg :: steps) =
      assemble nstr (before ++ [.directive key arg]) ++ assemble [] steps := by
  -- The induction follows the steps before the directive.
  induction before generalizing nstr with
  | nil => simp [assemble, pushText]
  | cons step before ih => cases step <;> simp [assemble, ih]

/-- Behind segments that do not end with a literal, further steps add elements of their own. -/
theorem assemble_behind {segments : List Segment}
    (ends : ∀ text, segments.getLast? ≠ some (.literal text)) (steps : List Token) :
    assemble [] (segments.flatMap Segment.tokens ++ steps) =
      assemble [] (segments.flatMap Segment.tokens) ++ assemble [] steps := by
  -- The last segment, if there is one, is a directive.
  rcases List.eq_nil_or_concat' segments with rfl | ⟨front, last, rfl⟩
  · simp [assemble, pushText]
  · cases last with
    | literal text => exact absurd (by simp) (ends text)
    | directive key arg =>
      have whole : (front ++ [Segment.directive key arg]).flatMap Segment.tokens =
          front.flatMap Segment.tokens ++ [.directive key (arg.getD [])] := by
        simp [Segment.tokens]
      rw [whole, List.append_assoc, List.singleton_append, assemble_directive]

/-- A text ends with a percent sign and the letters of a key. -/
def EndsWithDirective (text : Text) : Prop :=
  ∃ before key, text = before ++ '%' :: key ∧ key ≠ [] ∧ ∀ ch ∈ key, ch.isAlpha = true

/-- A text begins with a directive whose brace does not close, if there is no closing one. -/
def StartsUnclosed (text : Text) : Prop :=
  ∃ key rest, text = '%' :: (key ++ '{' :: rest) ∧ ∀ ch ∈ key, ch.isAlpha = true

/-- Every opening of a directive in a text stands right behind another directive. -/
def UnclosedFollow (before text : Text) : Prop :=
  ∀ first second, text = first ++ second → StartsUnclosed second →
    EndsWithDirective (before ++ first)

/-- The letters at the end of a text, if there is a percent sign before them. -/
def trailingKey (text : Text) : Option Text :=
  text.foldl (fun key ch =>
    if ch = '%' then some [] else if ch.isAlpha then key.map (· ++ [ch]) else none) none

/-- A percent sign opens an item without a key so far. -/
@[simp] theorem trailingKey_percent (text : Text) : trailingKey (text ++ ['%']) = some [] := by
  simp [trailingKey]

/-- A letter goes on with the key. -/
theorem trailingKey_letter {ch : Char} (letter : ch.isAlpha = true) (text : Text) :
    trailingKey (text ++ [ch]) = (trailingKey text).map (· ++ [ch]) := by
  -- A letter is no percent sign.
  have different : ch ≠ '%' := by
    rintro rfl
    exact absurd letter (by decide)
  simp [trailingKey, letter, different]

/-- Any other character ends the key. -/
theorem trailingKey_other {ch : Char} (letter : ¬ ch.isAlpha = true) (plain : ch ≠ '%')
    (text : Text) : trailingKey (text ++ [ch]) = none := by
  simp [trailingKey, letter, plain]

/-- Letters behind a percent sign are its key. -/
theorem trailingKey_key (text : Text) {key : Text} (letters : ∀ ch ∈ key, ch.isAlpha = true) :
    trailingKey (text ++ '%' :: key) = some key := by
  -- The induction is on the key from its end, like the fold that computes it.
  induction key using List.reverseRecOn with
  | nil => exact trailingKey_percent text
  | append_singleton key ch ih =>
    have ih := ih fun other member => letters other (List.mem_append_left _ member)
    have split : text ++ '%' :: (key ++ [ch]) = text ++ '%' :: key ++ [ch] := by simp
    rw [split, trailingKey_letter (letters ch (by simp)), ih]
    rfl

/-- A trailing key is what its name says. -/
theorem trailingKey_eq_some {text key : Text} (found : trailingKey text = some key) :
    (∃ before, text = before ++ '%' :: key) ∧ ∀ ch ∈ key, ch.isAlpha = true := by
  -- The induction is on the text from its end, where a sign begins a new key.
  induction text using List.reverseRecOn generalizing key with
  | nil => cases found
  | append_singleton text ch ih =>
    by_cases percent : ch = '%'
    · subst percent
      obtain rfl := Option.some.inj ((trailingKey_percent text).symm.trans found)
      exact ⟨⟨text, rfl⟩, by simp⟩
    · by_cases letter : ch.isAlpha = true
      · rw [trailingKey_letter letter] at found
        obtain ⟨shorter, inside, rfl⟩ := Option.map_eq_some_iff.mp found
        obtain ⟨⟨before, rfl⟩, letters⟩ := ih inside
        refine ⟨⟨before, by simp⟩, fun other member => ?_⟩
        rcases List.mem_append.mp member with member | member
        · exact letters other member
        · exact List.mem_singleton.mp member ▸ letter
      · rw [trailingKey_other letter percent] at found
        cases found

/-- A text ends with a directive if its trailing key is not empty. -/
theorem endsWithDirective_iff {text : Text} :
    EndsWithDirective text ↔ ∃ key, trailingKey text = some key ∧ key ≠ [] := by
  -- A trailing key is unique, so the one given is the one computed.
  constructor
  · rintro ⟨before, key, rfl, filled, letters⟩
    exact ⟨key, trailingKey_key before letters, filled⟩
  · rintro ⟨key, found, filled⟩
    obtain ⟨⟨before, same⟩, letters⟩ := trailingKey_eq_some found
    exact ⟨before, key, same, filled, letters⟩

/-- The first character is examined, and then the others behind it. -/
theorem unclosedFollow_cons {before text : Text} {ch : Char} :
    UnclosedFollow before (ch :: text) ↔
      (StartsUnclosed (ch :: text) → EndsWithDirective before) ∧
        UnclosedFollow (before ++ [ch]) text := by
  -- A part of the text before an opening is empty, or begins with this character.
  constructor
  · intro follow
    refine ⟨fun starts => ?_, fun first second split starts => ?_⟩
    · simpa using follow [] (ch :: text) rfl starts
    · simpa using follow (ch :: first) second (congrArg (ch :: ·) split) starts
  · rintro ⟨here, later⟩ first second split starts
    cases first with
    | nil => exact (List.append_nil before).symm ▸ here (by rw [split]; exact starts)
    | cons other first =>
      obtain ⟨rfl, split'⟩ := List.cons.inj split
      simpa using later first second split' starts

/-- Where no directive begins, the next character says nothing. -/
theorem unclosedFollow_skip {before text : Text} {ch : Char}
    (starts : ¬ StartsUnclosed (ch :: text)) :
    UnclosedFollow before (ch :: text) ↔ UnclosedFollow (before ++ [ch]) text := by
  -- Of the two conditions on a text, the first one is void.
  rw [unclosedFollow_cons]
  exact ⟨fun both => both.2, fun later => ⟨fun found => absurd found starts, later⟩⟩

/-- A directive begins with a percent sign. -/
theorem not_startsUnclosed {ch : Char} (plain : ch ≠ '%') (text : Text) :
    ¬ StartsUnclosed (ch :: text) := by
  -- The first characters would have to be equal.
  rintro ⟨_, _, same, _⟩
  exact plain (List.cons.inj same).1

/-- The first of two percent signs begins no directive. -/
theorem not_startsUnclosed_pair (rest : Text) : ¬ StartsUnclosed ('%' :: '%' :: rest) := by
  rintro ⟨key, _, same, letters⟩
  cases key with
  | nil => simp at same
  | cons first key =>
    -- The second one would be a letter of the key.
    obtain rfl : '%' = first := (List.cons.inj (List.cons.inj same).2).1
    exact absurd (letters '%' List.mem_cons_self) (by decide)

/-- A directive that can be read is not an opening that never closes. -/
theorem not_startsUnclosed_read {text : Text} {parsed : Parsed} (absent : '}' ∉ text)
    (read : readDirective text = some parsed) : ¬ StartsUnclosed ('%' :: text) := by
  rintro ⟨key, rest, same, letters⟩
  -- Without a closing brace, nothing is read behind an opening one.
  have split : text = key ++ '{' :: rest := (List.cons.inj same).2
  have closes : '}' ∉ rest := by
    rw [split] at absent
    exact fun found => absent (List.mem_append_right _ (List.mem_cons_of_mem _ found))
  rw [split, readDirective_unclosed letters closes] at read
  cases read

/-- Text without percent signs is passed. -/
theorem unclosedFollow_plain {before plain text : Text} (absent : '%' ∉ plain) :
    UnclosedFollow before (plain ++ text) ↔ UnclosedFollow (before ++ plain) text := by
  -- The induction follows the plain text, in which no directive begins.
  induction plain generalizing before with
  | nil => simp
  | cons ch plain ih =>
    obtain ⟨different, others⟩ := List.ne_and_not_mem_of_not_mem_cons absent
    rw [List.cons_append, unclosedFollow_skip (not_startsUnclosed (Ne.symm different) _), ih others,
      List.append_assoc]
    rfl

/-- Without closing braces, a directive has no argument, or its brace never closes. -/
theorem readDirective_open : ∀ {text : Text}, '}' ∉ text →
    (∃ key rest, text = key ++ rest ∧ (∀ ch ∈ key, ch.isAlpha = true) ∧
      (∀ ch, rest.head? = some ch → ¬ ch.isAlpha = true ∧ ch ≠ '{') ∧
        readDirective text = some ⟨key, [], rest⟩) ∨
      ∃ key rest, text = key ++ '{' :: rest ∧ ∀ ch ∈ key, ch.isAlpha = true
  | [], _ => .inl ⟨[], [], rfl, by simp, by simp, rfl⟩
  | ch :: text, absent => by
    obtain ⟨different, others⟩ := List.ne_and_not_mem_of_not_mem_cons absent
    -- Letters belong to the key, and no closing brace can do so.
    by_cases letter : ch.isAlpha = true
    · have inKey : isKeyChar ch := by
        simp [isKeyChar, letter]
      have letters {key : Text} (all : ∀ ch ∈ key, ch.isAlpha = true) :
          ∀ other ∈ ch :: key, other.isAlpha = true := by
        intro other member
        rcases List.mem_cons.mp member with rfl | member
        · exact letter
        · exact all other member
      rcases readDirective_open others with
        ⟨key, rest, rfl, all, stop, read⟩ | ⟨key, rest, rfl, all⟩
      · refine .inl ⟨ch :: key, rest, rfl, letters all, stop, ?_⟩
        rw [readDirective_key inKey, read]
        rfl
      · exact .inr ⟨ch :: key, rest, rfl, letters all⟩
    · -- What ends the key is a brace, or it ends the directive.
      by_cases opens : ch = '{'
      · exact .inr ⟨[], text, by rw [opens]; rfl, by simp⟩
      · refine .inl ⟨[], ch :: text, rfl, by simp, ?_, ?_⟩
        · rintro other same
          obtain rfl := Option.some.inj same
          exact ⟨letter, opens⟩
        · have outside : ¬ isKeyChar ch := by
            simp [isKeyChar, letter, Ne.symm different]
          exact readDirective_stop outside opens text

/-- How pending literal text shows in the text that the scanner has passed. -/
def Passed (before text : Text) : Bool → Prop
  | true => trailingKey before = none ∨ (trailingKey before = some [] ∧ text.head? = some '%')
  | false => ∃ key, trailingKey before = some key ∧
      (∀ ch, text.head? = some ch → ¬ ch.isAlpha = true) ∧ (key = [] → text.head? ≠ some '%')

/-- Behind a character that is no percent sign, literal text is pending. -/
theorem Passed.char {before text : Text} {ch : Char} {pending : Bool} (plain : ch ≠ '%')
    (passed : Passed before (ch :: text) pending) : Passed (before ++ [ch]) text true := by
  by_cases letter : ch.isAlpha = true
  · -- A letter can only stand where there is no percent sign before it.
    cases pending with
    | true =>
      rcases passed with none | ⟨_, percent⟩
      · exact .inl (by rw [trailingKey_letter letter, none]; rfl)
      · exact absurd (Option.some.inj percent) plain
    | false =>
      obtain ⟨_, _, stop, _⟩ := passed
      exact absurd letter (stop ch rfl)
  · exact .inl (trailingKey_other letter plain before)

/-- At a single percent sign, no text is pending exactly right behind a directive. -/
theorem Passed.percent {before text : Text} {pending : Bool}
    (passed : Passed before ('%' :: text) pending) :
    pending = false ↔ EndsWithDirective before := by
  -- The trailing key tells whether the scanner has just read a directive.
  rw [endsWithDirective_iff]
  cases pending with
  | true =>
    simp only [Bool.true_eq_false, false_iff]
    rintro ⟨key, found, filled⟩
    rcases passed with none | ⟨empty, _⟩
    · cases none.symm.trans found
    · exact filled (Option.some.inj (found.symm.trans empty))
  | false =>
    obtain ⟨key, found, _, alone⟩ := passed
    exact ⟨fun _ => ⟨key, found, fun empty => alone empty rfl⟩, fun _ => rfl⟩

/-- What follows the brace of a malformed directive is orderly if each opening has its place. -/
theorem orderly_iff : ∀ {text before : Text} {pending : Bool}, '}' ∉ text →
    Passed before text pending → (Orderly pending (tokens text) ↔ UnclosedFollow before text)
  | [], before, pending, _, _ => by
    -- There is nothing left that could begin.
    rw [tokens_nil, Orderly, true_iff]
    rintro first second split ⟨key, rest, rfl, _⟩
    simp at split
  | ch :: text, before, pending, absent, passed => by
    obtain ⟨_, open'⟩ := List.ne_and_not_mem_of_not_mem_cons absent
    -- The cases are the steps of the scanner on a text without closing braces.
    by_cases plain : ch ≠ '%'
    · rw [tokens_char plain, Orderly, unclosedFollow_skip (not_startsUnclosed plain text),
        orderly_iff open' (passed.char plain)]
    · obtain rfl := Decidable.not_not.mp plain
      by_cases more : text.head? = some '%'
      · -- The second percent sign is looked at again, with the first one pending.
        obtain ⟨rest, rfl⟩ := List.head?_eq_some_iff.mp more
        have passed' : Passed (before ++ ['%']) ('%' :: rest) true :=
          .inr ⟨trailingKey_percent before, rfl⟩
        rw [tokens_pair, Orderly, unclosedFollow_skip (not_startsUnclosed_pair rest),
          orderly_iff open' passed']
      · -- Either a directive is read as a whole, or it is an opening that never closes.
        rcases readDirective_open open' with ⟨key, rest, rfl, letters, stop, read⟩ |
          ⟨key, rest, rfl, letters⟩
        · have starts := not_startsUnclosed_read open' read
          -- Nothing is pending behind the directive, and its key is the trailing one.
          have plain : '%' ∉ key := fun found => absurd (letters '%' found) (by decide)
          have passed' : Passed (before ++ ['%'] ++ key) rest false := by
            refine ⟨key, ?_, fun other found => (stop other found).1, ?_⟩
            · rw [List.append_assoc]
              exact trailingKey_key before letters
            · rintro rfl
              exact more
          have closes : '}' ∉ rest := fun found => open' (List.mem_append_right _ found)
          rw [tokens_directive more read, Orderly, unclosedFollow_skip starts,
            unclosedFollow_plain plain, orderly_iff closes passed']
        · -- The opening is reported, and its key and brace become pending text.
          have closes : '}' ∉ rest := fun found =>
            open' (List.mem_append_right _ (List.mem_cons_of_mem _ found))
          have split : key ++ '{' :: rest = key ++ ['{'] ++ rest := by simp
          have passed' : Passed (before ++ ['%'] ++ (key ++ ['{'])) rest true := by
            refine .inl ?_
            rw [← List.append_assoc]
            exact trailingKey_other (by decide) (by decide) _
          have starts : StartsUnclosed ('%' :: (key ++ '{' :: rest)) := ⟨key, rest, rfl, letters⟩
          rw [tokens_unclosed letters closes, Orderly, orderly_chars false (by simp),
            unclosedFollow_cons, passed.percent, split, unclosedFollow_plain
              (percent_notMem_key letters), orderly_iff closes passed', ← split]
          exact and_congr_left fun _ => ⟨fun ends _ => ends, fun ends => ends starts⟩
termination_by text => text.length

/-- The steps through a pattern that a malformed directive follows. -/
theorem tokens_malformed (pattern : Pattern) (unclosed : Unclosed) :
    tokens (pattern.text ++ unclosed.text) =
      pattern.segments.flatMap Segment.tokens ++
        .unfinished :: ((unclosed.key ++ ['{']).map .char ++ tokens unclosed.rest) := by
  -- The percent sign of the directive is a boundary for what precedes it.
  rw [Pattern.text, tokens_segments pattern.valid pattern.apart (.inr rfl), Unclosed.text,
    tokens_unclosed unclosed.letters unclosed.unclosed]

/--
A malformed directive leaves what precedes it alone exactly if no literal text is pending.

That holds where it follows a directive or nothing, and so does each one like it that comes later.
The order is that of the elements from which the items of the formatter are made.
-/
theorem malformed_iff (pattern : Pattern) (unclosed : Unclosed) :
    (LogFormatter.init (pattern.text ++ unclosed.text)).items =
        (locate 0 0 [] (tokens (pattern.text ++ unclosed.text))).map (fun located =>
          located.entry.item) ∧
      (((∃ rest, (LogFormatter.init (pattern.text ++ unclosed.text)).items =
          (LogFormatter.init pattern.text).items ++ .string patternError :: rest) ∧
        InOrder (pattern.text ++ unclosed.text)) ↔
          (∀ text, pattern.segments.getLast? ≠ some (.literal text)) ∧
            UnclosedFollow [] unclosed.rest) := by
  refine ⟨LogFormatter.init_located _, ?_⟩
  -- Pending text shows in the order, which therefore decides about the first items as well.
  have order : InOrder (pattern.text ++ unclosed.text) ↔
      (∀ text, pattern.segments.getLast? ≠ some (.literal text)) ∧
        UnclosedFollow [] unclosed.rest := by
    have later : Orderly true (tokens unclosed.rest) ↔ UnclosedFollow [] unclosed.rest :=
      orderly_iff unclosed.unclosed (.inl rfl)
    rw [inOrder_iff, tokens_malformed, orderly_segments pattern.valid, Orderly,
      pendingAfter_eq_false, orderly_chars false (by simp), later]
  rw [order]
  refine ⟨fun both => both.2, fun both => ⟨?_, both⟩⟩
  rw [LogFormatter.init_items, LogFormatter.init_items, tokens_malformed, tokens_pattern,
    assemble_behind both.1, List.map_append, assemble, List.map_cons]
  exact ⟨_, rfl⟩

/-- A literal and a directive. -/
def textThenMessage : Pattern where
  segments := [.literal ['a'], .directive ['m'] none]
  valid := by decide
  apart := by decide

/-- A directive whose brace never closes, and another one right behind a third directive. -/
def twoUnclosed : Unclosed where
  key := ['d']
  rest := "Y%p%c\x7b".toList
  letters := List.forall_mem_singleton.mpr (by decide)
  unclosed := by decide

/-- Both errors stand where their directives do. -/
theorem malformed_iff_two :
    (∃ rest, (LogFormatter.init "a%m%d\x7bY%p%c\x7b".toList).items =
      (LogFormatter.init "a%m".toList).items ++ .string "<<pattern_error>>".toList :: rest) ∧
    InOrder "a%m%d\x7bY%p%c\x7b".toList := by
  -- Behind the first error, the scanner finds a directive before the second one.
  have orderly : Orderly true (tokens twoUnclosed.rest) := by
    have steps : tokens twoUnclosed.rest =
        [.char 'Y', .directive ['p'] [], .unfinished, .char 'c', .char '{'] := by decide +kernel
    rw [steps]
    exact ⟨rfl, trivial⟩
  have passed : Passed [] twoUnclosed.rest true := .inl rfl
  have follow := (orderly_iff twoUnclosed.unclosed passed).mp orderly
  have ends : ∀ text, textThenMessage.segments.getLast? ≠ some (.literal text) := by
    simp [textThenMessage]
  exact (malformed_iff textThenMessage twoUnclosed).2.mpr ⟨ends, follow⟩

/-- A literal, and behind it a directive whose brace never closes. -/
theorem malformed_overtakes_literal :
    ¬ ∃ rest, (LogFormatter.init ("x".toList ++ "%d\x7b".toList)).items =
      (LogFormatter.init "x".toList).items ++ .string patternError :: rest := by
  -- Both lists of items are computed, and they begin differently.
  have whole : (LogFormatter.init ("x".toList ++ "%d\x7b".toList)).items =
      [.string patternError, .string ['x', 'd', '{']] := by decide +kernel
  have first : (LogFormatter.init "x".toList).items = [.string ['x']] := by decide +kernel
  rintro ⟨rest, same⟩
  rw [whole, first] at same
  exact absurd (List.cons.inj same).1 (by decide)

end SimpleSrv.Tiga
