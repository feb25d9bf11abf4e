import JarRemap.Json.Read
import JarRemap.Proofs.Text.Utf16
import Mathlib.Tactic.SplitIfs

/-!
# Reading what was printed

In both layouts a printed value is read as that value, and reading stops right behind it. A number
alone does not show where it ends, so something has to follow that does not go on with it.
-/

namespace JarRemap.Json

/-! ## Blanks -/

/-- What the layout adds between the parts of a value is nothing but blanks. -/
structure Layout.Spaces (layout : Layout) : Prop where
  line : ∀ depth, (layout.line depth).all Scan.isBlank
  colon : ∃ blanks, layout.colon = ':' :: blanks ∧ blanks.all Scan.isBlank

theorem Layout.compact_spaces : Layout.compact.Spaces := ⟨fun _ => rfl, [], rfl, rfl⟩

theorem Layout.pretty_spaces : Layout.pretty.Spaces where
  line depth := by simp [Layout.pretty, Scan.isBlank]
  colon := ⟨[' '], rfl, rfl⟩

theorem Scan.bind_of {α β : Type} {first : Scan α} {next : α → Scan β} {source middle : List Char}
    {value : α} (found : first source = some (value, middle)) :
    (first >>= next) source = next value middle := by
  simp only [bind, StateT.bind, found, Option.bind_some]

theorem Scan.skipBlanks_append {blanks : List Char} (blank : blanks.all isBlank) {c : Char}
    (solid : isBlank c = false) (rest : List Char) :
    skipBlanks (blanks ++ c :: rest) = some ((), c :: rest) := by
  have skipped : (blanks ++ c :: rest).dropWhile isBlank = c :: rest := by
    rw [List.dropWhile_append_of_pos (List.all_eq_true.mp blank), List.dropWhile_cons_of_neg]
    simp [solid]
  simpa only [skipped] using
    show skipBlanks (blanks ++ c :: rest) = some ((), (blanks ++ c :: rest).dropWhile isBlank) from rfl

theorem Scan.skipBlanks_cons {c : Char} (solid : isBlank c = false) (rest : List Char) :
    skipBlanks (c :: rest) = some ((), c :: rest) :=
  skipBlanks_append (show ([] : List Char).all isBlank from rfl) solid rest

theorem Scan.take_cons (c : Char) (rest : List Char) : take (c :: rest) = some (c, rest) := rfl

/-! ## Text -/

theorem unitsOnto_control (found : List UInt16) {c : Char} (control : c.toNat < 0x20)
    (rest : List Char) :
    Scan.unitsOnto found ('\\' :: 'u' :: '0' :: '0' :: Nat.digitChar (c.toNat / 16) ::
      Nat.digitChar (c.toNat % 16) :: rest) = Scan.unitsOnto (UInt16.ofNat c.toNat :: found) rest := by
  have digits : ∀ n < 0x20, Text.Hex.digitsOnto 0
      ['0', '0', Nat.digitChar (n / 16), Nat.digitChar (n % 16)] = some n := by decide
  rw [Scan.unitsOnto, digits _ control]

/-- An escaped character is read as its units. -/
theorem unitsOnto_escaped (found : List UInt16) (c : Char) (rest : List Char) :
    Scan.unitsOnto found (escaped c ++ rest) =
      Scan.unitsOnto ((Text.Utf16.ofChar c).reverse ++ found) rest := by
  unfold escaped
  split
  next letter short =>
    -- Every letter stands for the character that it was chosen for.
    have back : Scan.unescaped? letter = some c ∧ letter ≠ 'u' := by
      simp only [escapeLetter?] at short
      split_ifs at short with h h h h h h h <;> obtain rfl := Option.some.inj short <;> subst h <;>
        decide
    rw [List.cons_append, List.cons_append, List.nil_append, Scan.unitsOnto, back.1]
    simp [back.2]
  next plain =>
    split
    next control =>
      simp only [List.cons_append, List.nil_append]
      rw [unitsOnto_control found control, Text.Utf16.ofChar, if_pos (by omega)]
      rfl
    next visible =>
      have unlike : c ≠ '"' ∧ c ≠ '\\' := by
        constructor <;> rintro rfl <;> simp [escapeLetter?] at plain
      rw [List.singleton_append, Scan.unitsOnto, if_neg visible]
      all_goals simp [unlike]

theorem unitsOnto_quoted (found : List UInt16) (chars rest : List Char) :
    Scan.unitsOnto found (chars.flatMap escaped ++ '"' :: rest) =
      some (found.reverse ++ chars.flatMap Text.Utf16.ofChar, rest) := by
  induction chars generalizing found with
  | nil => simp [Scan.unitsOnto]
  | cons c chars ih =>
    rw [List.flatMap_cons, List.append_assoc, unitsOnto_escaped, ih]
    simp

/-- The text behind its opening quote. -/
theorem string_quoted (text : String) (rest : List Char) :
    Scan.string (text.toList.flatMap escaped ++ '"' :: rest) = some (some text, rest) := by
  have units := (Text.Utf16.decode_eq_some_iff (Text.Utf16.encode text) text).mpr rfl
  rw [Scan.string, unitsOnto_quoted, Option.map_some]
  exact congrArg (fun read => some (read, rest)) units

/-! ## Numbers -/

/-- Does not go on with a number that stands before it. -/
def Stops (rest : List Char) : Prop :=
  ∀ c ∈ rest.head?, c.isDigit = false ∧ c ≠ '.' ∧ c ≠ 'e' ∧ c ≠ 'E'

theorem stops_blanks {blanks : List Char} (blank : blanks.all Scan.isBlank) {c : Char}
    (stops : Stops [c]) (rest : List Char) : Stops (blanks ++ c :: rest) := by
  cases blanks with
  | nil => exact stops
  | cons d blanks =>
    have first : Scan.isBlank d := by simp_all
    intro e here
    obtain rfl := Option.some.inj here
    simp only [Scan.isBlank, Bool.or_eq_true, beq_iff_eq] at first
    obtain ((rfl | rfl) | rfl) | rfl := first <;> decide

theorem stops_cons {c : Char} (stops : Stops [c]) (rest : List Char) : Stops (c :: rest) := stops

theorem stops_comma : Stops [','] := by simp [Stops]

theorem stops_bracket {closing : Char} (bracket : closing = ']' ∨ closing = '\x7d') :
    Stops [closing] := by
  obtain rfl | rfl := bracket <;> simp [Stops]

theorem toDigits_head (n : Nat) : (Nat.toDigits 10 n).head? = some '0' → n = 0 := by
  induction n using Nat.strongRecOn with
  | ind n ih =>
    rw [Nat.toDigits_eq_if (by decide)]
    split
    next small =>
      intro zero
      simpa [Nat.digitChar_eq_zero] using zero
    next large =>
      intro zero
      rw [List.head?_append, List.head?_eq_some_head Nat.toDigits_ne_nil, Option.some_or] at zero
      have := ih (n / 10) (by omega) (by rw [List.head?_eq_some_head Nat.toDigits_ne_nil, zero])
      omega

theorem isDigit_of_toDigits {n : Nat} {c : Char} {more : List Char}
    (digits : Nat.toDigits 10 n = c :: more) : c.isDigit = true :=
  Nat.isDigit_of_mem_toDigits (by decide) (by decide) (digits ▸ List.mem_cons_self)

theorem digits_repr (n : Nat) {rest : List Char} (stops : Stops rest) :
    Scan.digits (Nat.toDigits 10 n ++ rest) = some (Nat.toDigits 10 n, rest) := by
  have all : ∀ c ∈ Nat.toDigits 10 n, c.isDigit = true := fun c member =>
    Nat.isDigit_of_mem_toDigits (by decide) (by decide) member
  have front : (Nat.toDigits 10 n ++ rest).takeWhile Char.isDigit = Nat.toDigits 10 n := by
    rw [List.takeWhile_append_of_pos all]
    cases rest with
    | nil => simp
    | cons c rest => simp [(stops c rfl).1]
  have back : (Nat.toDigits 10 n ++ rest).dropWhile Char.isDigit = rest := by
    rw [List.dropWhile_append_of_pos all]
    cases rest with
    | nil => rfl
    | cons c rest => simp [(stops c rfl).1]
  simp [Scan.digits, front, back]

theorem whole_repr (n : Nat) {rest : List Char} (stops : Stops rest) :
    Scan.whole (Nat.toDigits 10 n ++ rest) = some (Nat.toDigits 10 n, rest) := by
  rw [Scan.whole, Scan.bind_of (digits_repr n stops)]
  refine congrFun (?_ : _ = (pure (Nat.toDigits 10 n) : Scan (List Char))) rest
  split
  next second more begins =>
    obtain rfl := toDigits_head n (by rw [begins]; rfl)
    simp at begins
  next => rfl

theorem number_repr (n : Nat) {rest : List Char} (stops : Stops rest) :
    Scan.number (Nat.toDigits 10 n ++ rest) = some (ofNat n, rest) := by
  have none (test : Char → Bool) (fails : ∀ c ∈ rest.head?, test c = false) :
      Scan.takeIf test rest = some ([], rest) := by
    cases rest with
    | nil => rfl
    | cons c rest => simp [Scan.takeIf, fails c rfl]
  -- The digits are neither preceded by a sign nor followed by a fraction or an exponent.
  have sign : Scan.takeIf (· == '-') (Nat.toDigits 10 n ++ rest) =
      some ([], Nat.toDigits 10 n ++ rest) := by
    cases digits : Nat.toDigits 10 n with
    | nil => exact absurd digits Nat.toDigits_ne_nil
    | cons c more =>
      have digit := isDigit_of_toDigits digits
      have unsigned : (c == '-') = false := beq_false_of_ne fun same => by simp [same] at digit
      simp [Scan.takeIf, unsigned]
  have fraction : Scan.fraction rest = some ([], rest) := by
    rw [Scan.fraction, Scan.bind_of (none _ fun c here => by simp [(stops c here).2.1])]
    rfl
  have exponent : Scan.exponent rest = some ([], rest) := by
    rw [Scan.exponent, Scan.bind_of (none _ fun c here => by simp [(stops c here).2.2])]
    rfl
  rw [Scan.number, Scan.bind_of sign, Scan.bind_of (whole_repr n stops), Scan.bind_of fraction,
    Scan.bind_of exponent]
  simp only [List.append_nil, List.nil_append]
  rfl

/-! ## Lists of parts -/

/-- Begins with a character that is no blank and closes no bracket. -/
def Begins (printed : List Char) : Prop :=
  ∃ c rest, printed = c :: rest ∧ Scan.isBlank c = false ∧ c ≠ ']' ∧ c ≠ '\x7d'

/-- The reader takes off the front what is printed for the value. -/
def Takes {α : Type} (item : Scan α) (printed : List Char) (value : α) : Prop :=
  ∀ blanks : List Char, blanks.all Scan.isBlank → ∀ rest : List Char, Stops rest →
    item (blanks ++ (printed ++ rest)) = some (value, rest)

section Lists

variable {α : Type} {layout : Layout} (spaces : layout.Spaces) {printed : α → List Char}
  {item : Scan α} {closing : Char}

include spaces in
theorem itemsOnto_printed {depth : Nat} (bracket : closing = ']' ∨ closing = '\x7d') {first : α}
    {others : List α} (takes : ∀ value ∈ first :: others, Takes item (printed value) value)
    {blanks : List Char} (blank : blanks.all Scan.isBlank) (found : List α) {rounds : Nat}
    (enough : others.length < rounds) (rest : List Char) :
    Scan.itemsOnto closing item found rounds (blanks ++ (printed first ++
      (others.flatMap (fun other => ',' :: layout.line (depth + 1) ++ printed other) ++
        (layout.line depth ++ closing :: rest)))) = some (found.reverse ++ first :: others, rest) := by
  induction others generalizing first blanks found rounds with
  | nil =>
    obtain _ | rounds := rounds
    · exact absurd enough (Nat.not_lt_zero _)
    have ends : Scan.isBlank closing = false ∧ closing ≠ ',' := by
      obtain rfl | rfl := bracket <;> decide
    have read := takes first List.mem_cons_self blanks blank _
      (stops_blanks (spaces.line depth) (stops_bracket bracket) rest)
    rw [Scan.itemsOnto, List.flatMap_nil, List.nil_append, Scan.bind_of read,
      Scan.bind_of (Scan.skipBlanks_append (spaces.line depth) ends.1 rest),
      Scan.bind_of (Scan.take_cons _ _), if_neg ends.2, if_pos rfl, List.reverse_cons]
    rfl
  | cons next others ih =>
    obtain _ | rounds := rounds
    · exact absurd enough (Nat.not_lt_zero _)
    rw [List.forall_mem_cons] at takes
    -- What follows the first part, from the comma on.
    let behind := layout.line (depth + 1) ++ (printed next ++
      (others.flatMap (fun other => ',' :: layout.line (depth + 1) ++ printed other) ++
        (layout.line depth ++ closing :: rest)))
    have read : item (blanks ++ (printed first ++ ',' :: behind)) = some (first, ',' :: behind) :=
      takes.1 blanks blank _ (stops_cons stops_comma _)
    have skipped : Scan.skipBlanks (',' :: behind) = some ((), ',' :: behind) :=
      Scan.skipBlanks_cons rfl _
    have step : Scan.itemsOnto closing item found (rounds + 1)
        (blanks ++ (printed first ++ ',' :: behind)) =
          Scan.itemsOnto closing item (first :: found) rounds behind := by
      rw [Scan.itemsOnto, Scan.bind_of read, Scan.bind_of skipped,
        Scan.bind_of (Scan.take_cons _ _), if_pos rfl]
    have later := ih takes.2 (spaces.line (depth + 1)) (first :: found)
      (Nat.lt_of_succ_lt_succ enough)
    rw [List.reverse_cons, List.append_assoc, List.singleton_append] at later
    rw [← later, ← step]
    simp only [behind, List.flatMap_cons, List.append_assoc, List.cons_append]

include spaces in
/-- Everything between the brackets, and the closing one. -/
theorem items_printed (depth : Nat) (opening : Char) (bracket : closing = ']' ∨ closing = '\x7d')
    {values : List α} (begins : ∀ value ∈ values, Begins (printed value))
    (takes : ∀ value ∈ values, Takes item (printed value) value) {rounds : Nat}
    (enough : values.length ≤ rounds) (rest : List Char) :
    ∃ inside, enclosed layout depth opening closing (values.map printed) = opening :: inside ∧
      Scan.items closing item rounds (inside ++ rest) = some (values, rest) := by
  cases values with
  | nil =>
    refine ⟨[closing], rfl, ?_⟩
    have solid : Scan.isBlank closing = false := by obtain rfl | rfl := bracket <;> decide
    have closes : Scan.takeIf (· == closing) (closing :: rest) = some ([closing], rest) := by
      simp [Scan.takeIf]
    rw [Scan.items, List.singleton_append, Scan.bind_of (Scan.skipBlanks_cons solid rest),
      Scan.bind_of closes]
    rfl
  | cons first others =>
    obtain ⟨c, more, starts, solid, notBracket⟩ := begins first List.mem_cons_self
    -- Whether the list is empty is told by the next character that is no blank.
    have opens (behind : List Char) :
        Scan.takeIf (· == closing) (c :: behind) = some ([], c :: behind) := by
      have unlike : (c == closing) = false := by
        obtain rfl | rfl := bracket
        · exact beq_false_of_ne notBracket.1
        · exact beq_false_of_ne notBracket.2
      simp [Scan.takeIf, unlike]
    have read : Scan.itemsOnto closing item [] rounds ([] ++ (printed first ++
        (others.flatMap (fun other => ',' :: layout.line (depth + 1) ++ printed other) ++
          (layout.line depth ++ closing :: rest)))) = some (first :: others, rest) :=
      itemsOnto_printed spaces bracket takes rfl [] (Nat.lt_of_succ_le enough) rest
    refine ⟨layout.line (depth + 1) ++ (printed first ++
      (others.flatMap (fun other => ',' :: layout.line (depth + 1) ++ printed other) ++
        (layout.line depth ++ [closing]))), by simp [enclosed, List.flatMap_map], ?_⟩
    simp only [List.append_assoc, List.nil_append, starts, List.cons_append] at read ⊢
    rw [Scan.items, Scan.bind_of (Scan.skipBlanks_append (spaces.line _) solid _),
      Scan.bind_of (opens _)]
    exact read

end Lists

/-! ## Values -/

/-- Values of which nothing is lost in print: there is no hole, and every number is one that is
written with `ofNat`. -/
inductive Whole : Json → Prop
  | null : Whole .null
  | bool (value : Bool) : Whole (.bool value)
  | number (value : Nat) : Whole (ofNat value)
  | text (value : String) : Whole (text value)
  | array {items : List Json} (each : ∀ item ∈ items, Whole item) : Whole (.array items)
  | object {members : List (Option String × Json)} (named : ∀ member ∈ members, member.1.isSome)
      (each : ∀ member ∈ members, Whole member.2) : Whole (.object members)

theorem printItems_eq (layout : Layout) (depth : Nat) (items : List Json) :
    printItems layout depth items = items.map (print layout depth) := by
  induction items with
  | nil => rfl
  | cons item items ih => rw [printItems, ih, List.map_cons]

/-- A member as it is printed. -/
def printMember (layout : Layout) (depth : Nat) (member : Option String × Json) : List Char :=
  quoted (member.1.getD "").toList ++ layout.colon ++ member.2.print layout depth

theorem printMembers_eq (layout : Layout) (depth : Nat) (members : List (Option String × Json)) :
    printMembers layout depth members = members.map (printMember layout depth) := by
  induction members with
  | nil => rfl
  | cons member members ih => rw [printMembers, ih, List.map_cons, printMember]

theorem print_ofNat (layout : Layout) (depth value : Nat) :
    (ofNat value).print layout depth = Nat.toDigits 10 value := by
  rw [ofNat, print, Nat.toString_eq_ofList_toDigits, String.toList_ofList]

theorem enclosed_begins {layout : Layout} {depth : Nat} {opening closing : Char}
    (bracket : opening = '[' ∨ opening = '\x7b') (parts : List (List Char)) :
    Begins (enclosed layout depth opening closing parts) := by
  have solid : Scan.isBlank opening = false ∧ opening ≠ ']' ∧ opening ≠ '\x7d' := by
    obtain rfl | rfl := bracket <;> decide
  cases parts with
  | nil => exact ⟨opening, _, rfl, solid⟩
  | cons first others => exact ⟨opening, _, rfl, solid⟩

theorem print_begins {value : Json} (complete : Whole value) (layout : Layout) (depth : Nat) :
    Begins (value.print layout depth) := by
  cases complete with
  | null => exact ⟨'n', _, rfl, by decide⟩
  | bool value => cases value <;> exact ⟨_, _, rfl, by decide⟩
  | number value =>
    rw [print_ofNat]
    cases digits : Nat.toDigits 10 value with
    | nil => exact absurd digits Nat.toDigits_ne_nil
    | cons c more =>
      -- A digit is neither a blank nor a bracket.
      have digit := isDigit_of_toDigits digits
      refine ⟨c, more, rfl, ?_, ?_, ?_⟩
      · simp only [Scan.isBlank, Bool.or_eq_false_iff, beq_eq_false_iff_ne]
        refine ⟨⟨⟨?_, ?_⟩, ?_⟩, ?_⟩ <;> rintro rfl <;> simp at digit
      · rintro rfl
        simp at digit
      · rintro rfl
        simp at digit
  | text value => exact ⟨'"', _, rfl, by decide⟩
  | array each => rw [print]; exact enclosed_begins (.inl rfl) _
  | object named each => rw [print]; exact enclosed_begins (.inr rfl) _

theorem printMember_begins (layout : Layout) (depth : Nat) (member : Option String × Json) :
    Begins (printMember layout depth member) :=
  ⟨'"', _, rfl, by decide⟩

/-! ## Reading a value -/

theorem value_quote (fuel : Nat) (rest : List Char) :
    Scan.value (fuel + 1) ('"' :: rest) = (Json.string <$> Scan.string) rest := by
  refine (Scan.bind_of (Scan.skipBlanks_cons rfl rest)).trans ?_
  rfl

theorem value_bracket (fuel : Nat) (rest : List Char) :
    Scan.value (fuel + 1) ('[' :: rest) =
      (Json.array <$> Scan.items ']' (Scan.value fuel) fuel) rest := by
  refine (Scan.bind_of (Scan.skipBlanks_cons rfl rest)).trans ?_
  rfl

theorem value_brace (fuel : Nat) (rest : List Char) :
    Scan.value (fuel + 1) ('\x7b' :: rest) =
      (Json.object <$> Scan.items '\x7d' (Scan.member (Scan.value fuel)) fuel) rest := by
  refine (Scan.bind_of (Scan.skipBlanks_cons rfl rest)).trans ?_
  rfl

theorem value_null (fuel : Nat) (rest : List Char) :
    Scan.value (fuel + 1) ("null".toList ++ rest) = some (.null, rest) := by
  have source : "null".toList ++ rest = 'n' :: ('u' :: 'l' :: 'l' :: rest) := rfl
  rw [source]
  refine (Scan.bind_of (Scan.skipBlanks_cons rfl _)).trans ?_
  rfl

theorem value_true (fuel : Nat) (rest : List Char) :
    Scan.value (fuel + 1) ("true".toList ++ rest) = some (.bool true, rest) := by
  have source : "true".toList ++ rest = 't' :: ('r' :: 'u' :: 'e' :: rest) := rfl
  rw [source]
  refine (Scan.bind_of (Scan.skipBlanks_cons rfl _)).trans ?_
  rfl

theorem value_false (fuel : Nat) (rest : List Char) :
    Scan.value (fuel + 1) ("false".toList ++ rest) = some (.bool false, rest) := by
  have source : "false".toList ++ rest = 'f' :: ('a' :: 'l' :: 's' :: 'e' :: rest) := rfl
  rw [source]
  refine (Scan.bind_of (Scan.skipBlanks_cons rfl _)).trans ?_
  rfl

theorem value_digit (fuel : Nat) {c : Char} (digit : c.isDigit) (rest : List Char) :
    Scan.value (fuel + 1) (c :: rest) = Scan.number (c :: rest) := by
  have solid : Scan.isBlank c = false := by
    simp only [Scan.isBlank, Bool.or_eq_false_iff, beq_eq_false_iff_ne]
    refine ⟨⟨⟨?_, ?_⟩, ?_⟩, ?_⟩ <;> rintro rfl <;> simp at digit
  rw [Scan.value, Scan.bind_of (Scan.skipBlanks_cons solid rest),
    Scan.bind_of (show (get : Scan _) (c :: rest) = some (c :: rest, c :: rest) from rfl)]
  -- None of the characters that begin another kind of value is a digit.
  refine congrFun ?_ _
  split <;> simp_all

theorem Scan.map_of {α β : Type} {scan : Scan α} (wrap : α → β) {source rest : List Char} {value : α}
    (found : scan source = some (value, rest)) : (wrap <$> scan) source = some (wrap value, rest) := by
  rw [map_eq_pure_bind, bind_of found]
  rfl

theorem member_printed {layout : Layout} (spaces : layout.Spaces) {depth : Nat} {scan : Scan Json}
    {name : String} {value : Json} (takes : Takes scan (value.print layout depth) value) :
    Takes (Scan.member scan) (printMember layout depth (some name, value)) (some name, value) := by
  intro blanks blank rest stops
  obtain ⟨after, colon, blankAfter⟩ := spaces.colon
  have read := takes after blankAfter rest stops
  simp only [printMember, quoted, Option.getD_some, colon, List.cons_append, List.append_assoc,
    List.nil_append]
  rw [Scan.member, Scan.bind_of (Scan.skipBlanks_append blank rfl _), Scan.bind_of (Scan.take_cons _ _),
    if_pos rfl, Scan.bind_of (string_quoted name _), Scan.bind_of (Scan.skipBlanks_cons rfl _),
    Scan.bind_of (Scan.take_cons _ _), if_pos rfl, Scan.bind_of read]
  rfl

/-- Every part is shorter than all of them behind commas, and so is their number. -/
theorem length_flatMap_parts (line : List Char) (parts : List (List Char)) :
    parts.length ≤ (parts.flatMap fun part => ',' :: line ++ part).length ∧
      ∀ part ∈ parts, part.length < (parts.flatMap fun part => ',' :: line ++ part).length := by
  induction parts with
  | nil => simp
  | cons first others ih =>
    simp only [List.flatMap_cons, List.length_append, List.length_cons, List.forall_mem_cons]
    refine ⟨by omega, by omega, fun part member => ?_⟩
    have := ih.2 part member
    omega

theorem length_enclosed {layout : Layout} {depth : Nat} {opening closing : Char}
    {parts : List (List Char)} {fuel : Nat}
    (enough : (enclosed layout depth opening closing parts).length < fuel + 1) :
    parts.length ≤ fuel ∧ ∀ part ∈ parts, part.length < fuel := by
  cases parts with
  | nil => simp
  | cons first others =>
    have bound := length_flatMap_parts (layout.line (depth + 1)) others
    simp only [enclosed, List.length_append, List.length_cons, List.length_nil] at enough ⊢
    rw [List.forall_mem_cons]
    refine ⟨by omega, by omega, fun part member => ?_⟩
    have := bound.2 part member
    omega

/-- Blanks are skipped before the first character is looked at. -/
theorem value_skips (fuel : Nat) {blanks : List Char} (blank : blanks.all Scan.isBlank)
    {printed : List Char} (begins : Begins printed) (rest : List Char) :
    Scan.value (fuel + 1) (blanks ++ (printed ++ rest)) = Scan.value (fuel + 1) (printed ++ rest) := by
  obtain ⟨c, more, rfl, solid, -⟩ := begins
  rw [List.cons_append, Scan.value, Scan.bind_of (Scan.skipBlanks_append blank solid _),
    Scan.bind_of (Scan.skipBlanks_cons solid _)]

/-- What is inside a value is shorter than its text, so the descent is never too deep for it. -/
theorem takes_of_shorter {layout : Layout} {item : Json} (complete : Whole item) {depth fuel : Nat}
    (short : (item.print layout depth).length < fuel)
    (read : ∀ {fuel rest}, (item.print layout depth).length ≤ fuel → Stops rest →
      Scan.value (fuel + 1) (item.print layout depth ++ rest) = some (item, rest)) :
    Takes (Scan.value fuel) (item.print layout depth) item := by
  intro blanks blank rest stops
  obtain _ | fuel := fuel
  · exact absurd short (Nat.not_lt_zero _)
  rw [value_skips fuel blank (print_begins complete layout depth)]
  exact read (Nat.le_of_lt_succ short) stops

/-- A value that was printed is read off the front. Only behind a number it matters what follows. -/
theorem value_printed {layout : Layout} (spaces : layout.Spaces) {value : Json}
    (complete : Whole value) {depth fuel : Nat} (enough : (value.print layout depth).length ≤ fuel)
    {rest : List Char} (follows : (∃ n, value = ofNat n) → Stops rest) :
    Scan.value (fuel + 1) (value.print layout depth ++ rest) = some (value, rest) := by
  -- The parts of a list or object are values as well, and their texts are shorter than the whole
  -- one.
  induction complete generalizing depth fuel rest with
  | null => exact value_null fuel rest
  | bool value =>
    cases value with
    | true => exact value_true fuel rest
    | false => exact value_false fuel rest
  | number value =>
    have read := number_repr value (follows ⟨value, rfl⟩)
    rw [print_ofNat]
    cases digits : Nat.toDigits 10 value with
    | nil => exact absurd digits Nat.toDigits_ne_nil
    | cons c more =>
      rw [digits, List.cons_append] at read
      rw [List.cons_append, value_digit fuel (isDigit_of_toDigits digits), read]
  | text value =>
    have read := Scan.map_of Json.string (string_quoted value rest)
    rw [text, print, quoted, List.cons_append, List.cons_append, value_quote, List.append_assoc]
    exact read
  | @array items each ih =>
    rw [print, printItems_eq] at enough ⊢
    have short := length_enclosed (Nat.lt_succ_of_le enough)
    obtain ⟨inside, opened, read⟩ := items_printed spaces depth '[' (.inl rfl)
      (fun item member => print_begins (each item member) layout (depth + 1))
      (fun item member => takes_of_shorter (each item member)
        (short.2 _ (List.mem_map_of_mem member)) fun enough stops => ih item member enough fun _ => stops)
      (by simpa using short.1) rest
    rw [opened, List.cons_append, value_bracket]
    exact Scan.map_of Json.array read
  | @object members named each ih =>
    rw [print, printMembers_eq] at enough ⊢
    have short := length_enclosed (Nat.lt_succ_of_le enough)
    have takes : ∀ member ∈ members, Takes (Scan.member (Scan.value fuel))
        (printMember layout (depth + 1) member) member := by
      rintro ⟨name, value⟩ member
      obtain ⟨name, rfl⟩ := Option.isSome_iff_exists.mp (named _ member)
      have shorter : (value.print layout (depth + 1)).length < fuel := by
        have whole := short.2 _ (List.mem_map_of_mem member)
        simp only [printMember, List.length_append] at whole
        omega
      exact member_printed spaces (takes_of_shorter (each _ member) shorter
        fun enough stops => ih _ member enough fun _ => stops)
    obtain ⟨inside, opened, read⟩ := items_printed spaces depth '\x7b' (.inr rfl)
      (fun member _ => printMember_begins layout (depth + 1) member) takes
      (by simpa using short.1) rest
    rw [opened, List.cons_append, value_brace]
    exact Scan.map_of Json.object read

/-- A value that was printed in either layout is read as that value. -/
theorem read?_printed {layout : Layout} (spaces : layout.Spaces) {value : Json}
    (complete : Whole value) : read? (String.ofList (value.print layout 0)) = some value := by
  have stops : Stops [] := by simp [Stops]
  have read := value_printed spaces complete (Nat.le_refl (value.print layout 0).length)
    fun _ => stops
  rw [List.append_nil] at read
  rw [read?, String.toList_ofList, read]
  rfl

/-- What is printed for an object or a list is not the beginning of anything else that is printed. -/
theorem print_delimits {layout : Layout} (spaces : layout.Spaces) {value other : Json}
    (complete : Whole value) (otherComplete : Whole other) (closed : ¬∃ n, value = ofNat n)
    {rest : List Char} (same : value.print layout 0 ++ rest = other.print layout 0) :
    value = other := by
  have stops : Stops [] := by simp [Stops]
  have front : Scan.value ((value.print layout 0).length + rest.length + 1)
      (value.print layout 0 ++ rest) = some (value, rest) :=
    value_printed spaces complete (Nat.le_add_right _ _) fun number => absurd number closed
  have all := value_printed spaces otherComplete (Nat.le_refl (other.print layout 0).length)
    fun _ => stops
  rw [List.append_nil, ← same, List.length_append, front] at all
  exact congrArg Prod.fst (Option.some.inj all)

end JarRemap.Json
