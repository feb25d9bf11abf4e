import JarRemap.Proofs.Access.History
import JarRemap.Proofs.Text.Pieces
import Mathlib.Data.List.Nodup
import Mathlib.Data.List.TakeDrop

/-!
# Rules as lines

A rule that was read from a line is printed as a line that reads as the same rule, whatever word
stood for its visibility. The key of a rule says what the rule is for: the owner ends at the blank,
and the name of a member at the first parenthesis. So there are no two targets with one record.
-/

namespace JarRemap

namespace MemberPattern

/-- The name and the descriptor can be told apart when they run together. -/
structure Separable (pattern : MemberPattern) : Prop where
  name : '(' ∉ pattern.name.toList
  descriptor : ∀ text ∈ pattern.descriptor, ∃ rest, text.toList = '(' :: rest

theorem Separable.text_inj {pattern other : MemberPattern} (separable : pattern.Separable)
    (separable' : other.Separable) (same : pattern.text = other.text) : pattern = other := by
  obtain ⟨name, descriptor⟩ := pattern
  obtain ⟨name', descriptor'⟩ := other
  have free : '(' ∉ name.toList := separable.name
  have free' : '(' ∉ name'.toList := separable'.name
  have chars := congrArg String.toList same
  simp only [text, String.toList_append] at chars
  -- A parenthesis in one of the texts is from a descriptor, so both have one or neither has.
  cases descriptor with
  | none =>
    cases descriptor' with
    | none => simpa [String.toList_inj] using chars
    | some text' =>
      obtain ⟨rest, begins⟩ := separable'.descriptor text' rfl
      exact absurd (by simpa [begins] using congrArg ('(' ∈ ·) chars) free
  | some text =>
    obtain ⟨rest, begins⟩ := separable.descriptor text rfl
    cases descriptor' with
    | none => exact absurd (by simpa [begins] using congrArg ('(' ∈ ·) chars) free'
    | some text' =>
      obtain ⟨rest', begins'⟩ := separable'.descriptor text' rfl
      simp only [Option.getD, begins, begins'] at chars
      obtain ⟨names, rests⟩ := Text.first_mark_inj free free' chars
      rw [String.toList_inj.mp names, String.toList_inj.mp (begins.trans (rests ▸ begins'.symm))]

/-- A pattern that can be written in one word. -/
inductive Readable : MemberPattern → Prop
  | bare {name : String} : '(' ∉ name.toList → Readable ⟨name, none⟩
  | described {name descriptor : String} : '(' ∉ name.toList → name.toList ≠ [] →
      descriptor = noDescriptor ∨ Descriptor.isMethod descriptor → Readable ⟨name, some descriptor⟩

theorem parenthesis_begins {descriptor : String}
    (proper : descriptor = noDescriptor ∨ Descriptor.isMethod descriptor) :
    ∃ rest, descriptor.toList = '(' :: rest := by
  obtain rfl | isMethod := proper
  · exact ⟨[')'], by decide⟩
  · rw [Descriptor.isMethod] at isMethod
    generalize descriptor.toList = chars at isMethod ⊢
    -- A method descriptor is read from its parenthesis on, and from nothing else.
    revert isMethod
    fun_cases MethodType.parse? chars with
    | case1 rest => exact fun _ => ⟨rest, rfl⟩
    | case2 => exact nofun

theorem Readable.separable {pattern : MemberPattern} (readable : pattern.Readable) :
    pattern.Separable := by
  cases readable with
  | bare free => exact ⟨free, nofun⟩
  | described free _ proper =>
    refine ⟨free, fun text here => ?_⟩
    obtain rfl := Option.some.inj here
    exact parenthesis_begins proper

theorem parse_bare {word : List Char} (free : '(' ∉ word) :
    parse word = .ok ⟨String.ofList word, none⟩ := by
  have passes : ∀ c ∈ word, (c != '(') = true := fun c member =>
    bne_iff_ne.mpr fun same => free (same ▸ member)
  rw [parse, List.span_eq_takeWhile_dropWhile, List.takeWhile_eq_self_iff.mpr passes,
    List.dropWhile_eq_nil_iff.mpr passes]

theorem parse_described {name rest : List Char} (free : '(' ∉ name) :
    parse (name ++ '(' :: rest) =
      if name.isEmpty then .error .missingMember
      else if String.ofList ('(' :: rest) = noDescriptor ∨
          Descriptor.isMethod (String.ofList ('(' :: rest)) then
        .ok ⟨String.ofList name, some (String.ofList ('(' :: rest))⟩
      else .error (.badDescriptor (String.ofList ('(' :: rest))) := by
  have passes : ∀ c ∈ name, (c != '(') = true := fun c member =>
    bne_iff_ne.mpr fun same => free (same ▸ member)
  rw [parse, List.span_eq_takeWhile_dropWhile, List.takeWhile_append_of_pos passes,
    List.dropWhile_append_of_pos passes, List.takeWhile_cons_of_neg (by decide),
    List.dropWhile_cons_of_neg (by decide), List.append_nil]

theorem parse_ok_iff {word : List Char} {pattern : MemberPattern} :
    parse word = .ok pattern ↔ pattern.Readable ∧ pattern.text.toList = word := by
  constructor
  · intro read
    -- The first parenthesis is where the descriptor begins, so a word without one is all name.
    by_cases within : '(' ∈ word
    · obtain ⟨name, rest, rfl, free⟩ := List.eq_append_cons_of_mem within
      rw [parse_described free] at read
      split at read
      next => cases read
      next begun =>
        split at read
        next proper =>
          obtain rfl := Except.ok.inj read
          exact ⟨.described (by simpa using free) (by simpa using begun) proper, by simp [text]⟩
        next => cases read
    · rw [parse_bare within] at read
      obtain rfl := Except.ok.inj read
      exact ⟨.bare (by simpa using within), by simp [text]⟩
  · rintro ⟨readable, rfl⟩
    cases readable with
    | bare free => simpa [text] using parse_bare free
    | @described name descriptor free begun proper =>
      -- A descriptor begins with the parenthesis, so the word is cut in front of it again.
      obtain ⟨rest, begins⟩ := parenthesis_begins proper
      obtain rfl : descriptor = String.ofList ('(' :: rest) := by rw [← begins, String.ofList_toList]
      have read := @parse_described name.toList rest free
      rw [if_neg (by simpa using begun), if_pos proper] at read
      simpa [text] using read

end MemberPattern

namespace AccessRule

/-! ## The words of a line -/

/-- The text can be a word of a line: nothing in it ends a word or is written in another way. -/
structure Solid (word : List Char) : Prop where
  begun : word ≠ []
  plain : ∀ c ∈ word, Text.isBlank c = false ∧ c ≠ '#' ∧ c ≠ '.'

/-- The words of a line, with slashes for dots. -/
def lineWords (line : List Char) : List (List Char) :=
  Text.words ((stripComment line).map fun c => if c = '.' then '/' else c)

theorem notMem_stripComment (line : List Char) : '#' ∉ stripComment line := fun within =>
  Text.notMem_cut '#' line (Text.trim_subset _ within)

theorem solid_of_mem_lineWords {line word : List Char} (member : word ∈ lineWords line) :
    Solid word := by
  have spaced : Text.Spaced _ (lineWords line) := Text.spaced_words _
  obtain ⟨begun, unbroken⟩ := spaced.solid member
  refine ⟨begun, fun c within => ⟨unbroken c within, ?_⟩⟩
  obtain ⟨d, here, rfl⟩ := List.mem_map.mp (spaced.mem member within)
  have uncommented : d ≠ '#' := fun same => notMem_stripComment line (same ▸ here)
  split
  next => decide
  next solid => exact ⟨uncommented, solid⟩

theorem Solid.plain_intercalate {words : List (List Char)} (solid : ∀ word ∈ words, Solid word) :
    ∀ c ∈ List.intercalate [' '] words, c ≠ '#' ∧ c ≠ '.' := by
  induction words with
  | nil => exact nofun
  | cons word words ih =>
    obtain ⟨first, others⟩ := List.forall_mem_cons.mp solid
    have plain : ∀ c ∈ word, c ≠ '#' ∧ c ≠ '.' := fun c within => (first.plain c within).2
    -- A blank stands between two words, so the last word has to be told from the others.
    cases words with
    | nil =>
      rw [List.intercalate_singleton]
      exact plain
    | cons next words =>
      rw [List.intercalate_cons_cons]
      intro c within
      obtain (within | blank) | within := List.mem_append.mp within |>.imp_left List.mem_append.mp
      · exact plain c within
      · obtain rfl := List.mem_singleton.mp blank
        decide
      · exact ih others c within

/-- Solid words with a blank after each but the last are the words of that line. -/
theorem lineWords_intercalate {words : List (List Char)} (solid : ∀ word ∈ words, Solid word) :
    lineWords (List.intercalate [' '] words) = words := by
  have plain := Solid.plain_intercalate solid
  have uncommented : '#' ∉ List.intercalate [' '] words := fun within => (plain _ within).1 rfl
  have unchanged : (Text.trim (List.intercalate [' '] words)).map
      (fun c => if c = '.' then '/' else c) = Text.trim (List.intercalate [' '] words) := by
    refine (List.map_congr_left fun c within => ?_).trans (List.map_id _)
    exact if_neg (plain c (Text.trim_subset _ within)).2
  rw [lineWords, stripComment, Text.cut_of_notMem uncommented, unchanged, Text.words_trim]
  refine Text.words_intercalate fun word member => ⟨(solid word member).begun, fun c within => ?_⟩
  exact ((solid word member).plain c within).1

theorem parse_rule_iff {line : String} {rule : AccessRule} :
    parse line = .ok (some rule) ↔ ofWords (lineWords line.toList) = .ok rule := by
  rw [parse]
  by_cases blank : (stripComment line.toList).isEmpty
  · rw [if_pos blank, lineWords, List.isEmpty_iff.mp blank]
    exact iff_of_false nofun nofun
  · rw [if_neg blank, ← lineWords]
    cases ofWords (lineWords line.toList) with
    | error fault => exact iff_of_false nofun nofun
    | ok found => simp [Functor.map, Except.map]

/-! ## The words of a rule -/

/-- The word that asks for a visibility and finality. -/
def modifier (visibility : Visibility) (finality : Finality) : List Char :=
  (visibility.keyword ++ finality.ending).toList

/-- The words that say what the rule is for. -/
def targetWords (rule : AccessRule) : List (List Char) :=
  rule.owner.toList :: (rule.member.map (·.text.toList)).toList

theorem key_toList (rule : AccessRule) : rule.key.toList = List.intercalate [' '] rule.targetWords := by
  obtain ⟨visibility, finality, owner, member⟩ := rule
  cases member <;> simp [key, targetWords]

theorem text_toList (rule : AccessRule) : rule.text.toList =
    List.intercalate [' '] (modifier rule.visibility rule.finality :: rule.targetWords) := by
  rw [text, String.toList_append, key_toList, modifier, targetWords, List.intercalate_cons_cons]
  simp

theorem solid_modifier (visibility : Visibility) (finality : Finality) :
    Solid (modifier visibility finality) := by
  have plain : (modifier visibility finality).all
      (fun c => Text.isBlank c = false ∧ c ≠ '#' ∧ c ≠ '.') = true := by
    cases visibility <;> cases finality <;> decide
  refine ⟨?_, by simpa using plain⟩
  cases visibility <;> cases finality <;> decide

theorem ofWord_modifier (visibility : Visibility) (finality : Finality) :
    Visibility.ofWord (modifier visibility finality) = visibility ∧
      Finality.ofWord (modifier visibility finality) = finality := by
  cases visibility <;> cases finality <;> decide

theorem ofWords_ok_iff {words : List (List Char)} {rule : AccessRule} :
    ofWords words = .ok rule ↔ ∃ first, words = first :: rule.targetWords ∧
      Visibility.ofWord first = rule.visibility ∧ Finality.ofWord first = rule.finality ∧
        ∀ pattern ∈ rule.member, pattern.Readable := by
  constructor
  · -- Two words are a rule for a class and three are one for a member. Other lines are rejected.
    fun_cases ofWords words with
    | case3 first owner =>
      rintro ⟨⟩
      exact ⟨first, by simp [targetWords], rfl, rfl, nofun⟩
    | case4 first owner member =>
      cases parsed : MemberPattern.parse member with
      | error fault => exact nofun
      | ok pattern =>
        rintro ⟨⟩
        obtain ⟨readable, rfl⟩ := MemberPattern.parse_ok_iff.mp parsed
        exact ⟨first, by simp [targetWords], rfl, rfl, by simpa using readable⟩
    | case1 | case2 | case5 => exact nofun
  · rintro ⟨first, rfl, visibility, finality, readable⟩
    obtain ⟨_, _, owner, member⟩ := rule
    subst visibility finality
    cases member with
    | none => simp [targetWords, ofWords]
    | some pattern =>
      have parsed := MemberPattern.parse_ok_iff.mpr ⟨readable pattern rfl, rfl⟩
      simp [targetWords, ofWords, parsed, bind, Except.bind, pure, Except.pure]

/-- A rule that can be written in a line. -/
structure Readable (rule : AccessRule) : Prop where
  solid : ∀ word ∈ rule.targetWords, Solid word
  pattern : ∀ pattern ∈ rule.member, pattern.Readable

theorem readable_of_parse {line : String} {rule : AccessRule} (read : parse line = .ok (some rule)) :
    rule.Readable := by
  obtain ⟨first, words, -, -, pattern⟩ := ofWords_ok_iff.mp (parse_rule_iff.mp read)
  refine ⟨fun word member => ?_, pattern⟩
  have among : word ∈ lineWords line.toList := words ▸ List.mem_cons_of_mem _ member
  exact solid_of_mem_lineWords among

theorem Readable.reads {rule : AccessRule} (readable : rule.Readable) :
    parse rule.text = .ok (some rule) := by
  have solid : ∀ word ∈ modifier rule.visibility rule.finality :: rule.targetWords, Solid word :=
    List.forall_mem_cons.mpr ⟨solid_modifier _ _, readable.solid⟩
  obtain ⟨visibility, finality⟩ := ofWord_modifier rule.visibility rule.finality
  rw [parse_rule_iff, text_toList, lineWords_intercalate solid, ofWords_ok_iff]
  exact ⟨_, rfl, visibility, finality, readable.pattern⟩

/-! ## Keys -/

/-- The parts of the key can be told apart. -/
structure Separable (rule : AccessRule) : Prop where
  owner : ' ' ∉ rule.owner.toList
  pattern : ∀ pattern ∈ rule.member, pattern.Separable

theorem Readable.separable {rule : AccessRule} (readable : rule.Readable) : rule.Separable where
  owner within := by
    have owner := readable.solid rule.owner.toList List.mem_cons_self
    exact absurd (owner.plain ' ' within).1 (by decide)
  pattern pattern here := (readable.pattern pattern here).separable

theorem Separable.key_iff {rule other : AccessRule} (separable : rule.Separable)
    (separable' : other.Separable) :
    rule.key = other.key ↔ rule.owner = other.owner ∧ rule.member = other.member := by
  obtain ⟨_, _, owner, member⟩ := rule
  obtain ⟨_, _, owner', member'⟩ := other
  have free : ' ' ∉ owner.toList := separable.owner
  have free' : ' ' ∉ owner'.toList := separable'.owner
  constructor
  · intro same
    have chars := congrArg String.toList same
    simp only [key] at chars
    -- A key has a blank in it just if there is a member.
    cases member with
    | none =>
      cases member' with
      | none => exact ⟨same, rfl⟩
      | some pattern' => exact absurd (by simp [chars]) free
    | some pattern =>
      cases member' with
      | none => exact absurd (by simp [← chars]) free'
      | some pattern' =>
        obtain ⟨owners, texts⟩ := Text.first_mark_inj free free' (by simpa using chars)
        have patterns := (separable.pattern pattern rfl).text_inj (separable'.pattern pattern' rfl)
          (String.toList_inj.mp texts)
        exact ⟨String.toList_inj.mp owners, congrArg some patterns⟩
  · rintro ⟨owners, members⟩
    obtain rfl : owner = owner' := owners
    obtain rfl : member = member' := members
    rfl

end AccessRule

/-- No new name has a parenthesis in it. -/
def MemberNames.Plain (names : MemberNames) : Prop := ∀ row ∈ names.rows, '(' ∉ row.2.toList

theorem AccessRule.Separable.renamed {rule : AccessRule} {names : MemberNames}
    (separable : rule.Separable) (plain : names.Plain) : (names.renameRule rule).Separable := by
  fun_cases MemberNames.renameRule names rule with
  | case1 pattern member new found =>
    obtain ⟨row, looked, rfl⟩ := Option.map_eq_some_iff.mp found
    refine ⟨separable.owner, fun renamed here => ?_⟩
    obtain rfl := Option.some.inj here
    have free := plain row (List.mem_of_find?_eq_some looked)
    exact ⟨free, (separable.pattern pattern member).descriptor⟩
  | case2 | case3 => exact separable

namespace RuleSet

variable {names : MemberNames} {calls : List RuleCall}

theorem mem_loadedBy_iff {loaded : LoadedRule} : loaded ∈ loadedBy names calls ↔
    .load loaded.line loaded.origin ∈ calls ∧ ∃ rule,
      AccessRule.parse loaded.line = .ok (some rule) ∧ names.renameRule rule = loaded.rule := by
  obtain ⟨renamed, line, origin⟩ := loaded
  rw [loadedBy, List.mem_filterMap]
  constructor
  · rintro ⟨call, member, holds⟩
    cases call with
    | apply tracked => cases holds
    | load line' origin' =>
      rw [RuleCall.loaded?] at holds
      split at holds
      next rule read =>
        cases holds
        exact ⟨member, rule, read, rfl⟩
      next => cases holds
  · rintro ⟨member, rule, read, rfl⟩
    exact ⟨_, member, by simp [RuleCall.loaded?, read]⟩

/-- Every rule of a set is from a line. -/
theorem separable_of_mem (plain : names.Plain) {rule : AccessRule}
    (member : rule ∈ (afterAll calls (new names)).rules) : rule.Separable := by
  rw [(accounts_afterAll names calls).rules] at member
  obtain ⟨loaded, among, rfl⟩ := List.mem_map.mp member
  obtain ⟨-, rule, read, renamed⟩ := mem_loadedBy_iff.mp among
  exact renamed ▸ (AccessRule.readable_of_parse read).separable.renamed plain

theorem existsUnique_record {rule : AccessRule} (member : rule ∈ (afterAll calls (new names)).rules) :
    ∃! record, record ∈ (afterAll calls (new names)).ledger.records ∧ record.key = rule.key := by
  have accounts := accounts_afterAll names calls
  rw [accounts.rules] at member
  obtain ⟨loaded, among, rfl⟩ := List.mem_map.mp member
  obtain ⟨record, there, here⟩ := List.mem_map.mp ((accounts.mem_keys_iff _).mpr ⟨loaded, among, rfl⟩)
  refine ⟨record, ⟨there, here⟩, ?_⟩
  rintro other ⟨there', here'⟩
  exact List.inj_on_of_nodup_map accounts.once there' there (here'.trans here.symm)

end RuleSet

namespace AccessRule

/-- A rule that was read from a line is printed as a line that reads as the same rule, and it shares
its key with just the rules for the same owner and member. So there is one record for it once the
line is loaded, whatever else is loaded or applied, and that is the record of no other target, if
members are renamed to names without a parenthesis. -/
theorem parse_text {line : String} {rule : AccessRule} (read : parse line = .ok (some rule)) :
    parse rule.text = .ok (some rule) ∧
      (∀ line' other, parse line' = .ok (some other) →
        (rule.key = other.key ↔ rule.owner = other.owner ∧ rule.member = other.member)) ∧
      ∀ names calls origin, names.Plain → RuleCall.load line origin ∈ calls →
        let set := RuleSet.afterAll calls (.new names)
        let renamed := names.renameRule rule
        renamed ∈ set.rules ∧
          (∃! record, record ∈ set.ledger.records ∧ record.key = renamed.key) ∧
            ∀ other ∈ set.rules, renamed.key = other.key ↔
              renamed.owner = other.owner ∧ renamed.member = other.member := by
  have readable := readable_of_parse read
  refine ⟨readable.reads, fun line' other read' => ?_, ?_⟩
  · exact readable.separable.key_iff (readable_of_parse read').separable
  · intro names calls origin plain loads set renamed
    have member : renamed ∈ set.rules := by
      rw [(RuleSet.accounts_afterAll names calls).rules]
      exact List.mem_map.mpr ⟨⟨renamed, line, origin⟩, RuleSet.mem_loadedBy_iff.mpr
        ⟨loads, rule, read, rfl⟩, rfl⟩
    refine ⟨member, RuleSet.existsUnique_record member, fun other among => ?_⟩
    exact (RuleSet.separable_of_mem plain member).key_iff (RuleSet.separable_of_mem plain among)

/-- A dotted line with a note behind it, and a line for the field that has the name of the method. -/
theorem parse_text_beside_field :
    let line := "private+f a.b.C  m(La.b.D;)V # note"
    let rule : AccessRule := ⟨.priv, .set, "a/b/C", some ⟨"m", some "(La/b/D;)V"⟩⟩
    let calls : List RuleCall := [.load "public a/b/C m" ⟨"at.cfg", 1⟩, .load line ⟨"at.cfg", 2⟩]
    parse line = .ok (some rule) ∧ parse "private+f a/b/C m(La/b/D;)V" = .ok (some rule) ∧
      ∃! record, record ∈ (RuleSet.afterAll calls (.new .empty)).ledger.records ∧
        record.key = "a/b/C m(La/b/D;)V" := by
  intro line rule calls
  have read : parse line = .ok (some rule) := by decide
  obtain ⟨again, -, ledger⟩ := parse_text read
  exact ⟨read, again, (ledger .empty calls ⟨"at.cfg", 2⟩ nofun (by simp [calls])).2.1⟩

end AccessRule

end JarRemap
