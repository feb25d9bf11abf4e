import JarRemap.Mapping.Srg
import JarRemap.Proofs.Descriptor.Types
import JarRemap.Proofs.Mapping.Keys
import JarRemap.Proofs.Mapping.Undone

/-!
# SRG files are their lines

A line is a record or it is wrong, and nothing is both. So a file without wrong lines has one entry for
each of its records, in order, and of a file with wrong lines or with two records for one symbol the
first such line is known.
-/

namespace JarRemap.Srg

open Text (isBlank Spaced Trimmed trim trimEnd words cut)

/-! ## Records -/

/-- A line without its comment. -/
def content (line : String) : List Char := line.toList.takeWhile (· != '#')

/-- The tag stands before the first colon, the fields behind it, and blanks around all of them. -/
def Tagged (chars : List Char) (tag : String) (fields : List (List Char)) : Prop :=
  ∃ before behind rest, chars = before ++ tag.toList ++ behind ++ ':' :: rest ∧
    (∀ c ∈ before, isBlank c) ∧ (∀ c ∈ behind, isBlank c) ∧ Trimmed tag.toList ∧ ':' ∉ tag.toList ∧
    Spaced rest fields

/-- The owner of a member stands before the last slash, and its name behind it. -/
structure IsMember (word : List Char) (owner name : String) : Prop where
  spelled : word = owner.toList ++ '/' :: name.toList
  simple : '/' ∉ name.toList
  owned : owner ≠ ""
  named : name ≠ ""

/-- The text of a method type. -/
def IsDescriptor (text : List Char) : Prop :=
  ∃ type : MethodType, type.WellNamed ∧ text = type.text

/-- A well-formed record, and the entry that it stands for. -/
inductive Record (chars : List Char) : MappingEntry → Prop
  | package {old new : String} : Tagged chars "PK" [old.toList, new.toList] →
      Record chars (.ofOwners .package old new)
  | class_ {old new : String} : Tagged chars "CL" [old.toList, new.toList] →
      Record chars (.ofOwners .class_ old new)
  | field {old new : List Char} {oldOwner newOwner oldName newName : String} :
      Tagged chars "FD" [old, new] → IsMember old oldOwner oldName → IsMember new newOwner newName →
      Record chars ⟨.field, oldOwner, newOwner, some oldName, some newName, none, none⟩
  | method {old new : List Char}
      {oldOwner newOwner oldName newName oldDescriptor newDescriptor : String} :
      Tagged chars "MD" [old, oldDescriptor.toList, new, newDescriptor.toList] →
      IsMember old oldOwner oldName → IsMember new newOwner newName →
      IsDescriptor oldDescriptor.toList → IsDescriptor newDescriptor.toList →
      Record chars ⟨.method, oldOwner, newOwner, some oldName, some newName, some oldDescriptor,
        some newDescriptor⟩

def tags : List String := ["PK", "CL", "FD", "MD"]

/-- The number of fields behind a tag. -/
def arity (tag : String) : Nat := if tag = "MD" then 4 else 2

/-- What is wrong with a line that is no record. -/
inductive Wrong (chars : List Char) : Reason → Prop
  | missingTag : ':' ∉ chars → Wrong chars .missingTag
  | unknownTag {tag : String} {fields : List (List Char)} :
      Tagged chars tag fields → tag ∉ tags → Wrong chars .unknownTag
  | fieldCount {tag : String} {fields : List (List Char)} :
      Tagged chars tag fields → tag ∈ tags → fields.length ≠ arity tag → Wrong chars .fieldCount
  | badField {old new : List Char} : Tagged chars "FD" [old, new] →
      (∀ owner name, ¬IsMember old owner name) ∨ (∀ owner name, ¬IsMember new owner name) →
      Wrong chars .badMember
  | badMethod {old oldDescriptor new newDescriptor : List Char} :
      Tagged chars "MD" [old, oldDescriptor, new, newDescriptor] →
      (∀ owner name, ¬IsMember old owner name) ∨ (∀ owner name, ¬IsMember new owner name) →
      Wrong chars .badMember
  | badDescriptor {old oldDescriptor new newDescriptor : List Char}
      {oldOwner newOwner oldName newName : String} :
      Tagged chars "MD" [old, oldDescriptor, new, newDescriptor] → IsMember old oldOwner oldName →
      IsMember new newOwner newName → ¬IsDescriptor oldDescriptor ∨ ¬IsDescriptor newDescriptor →
      Wrong chars .badDescriptor

theorem tagged_iff {chars : List Char} {tag : String} {fields : List (List Char)} :
    Tagged chars tag fields ↔ ∃ front rest, cut ':' chars = (front, some rest) ∧
      String.ofList (trim front) = tag ∧ words rest = fields := by
  -- The blanks around the tag cannot hide a colon, so the first one ends it.
  have plain : ∀ c, isBlank c → c ≠ ':' := by
    rintro c blank rfl
    revert blank
    decide
  constructor
  · rintro ⟨before, behind, rest, rfl, front, back, trimmed, free, spaced⟩
    refine ⟨before ++ tag.toList ++ behind, rest, ?_, ?_, Text.spaced_iff.mp spaced⟩
    · refine Text.cut_eq_some_iff.mpr ⟨rfl, ?_⟩
      simp only [List.mem_append, not_or]
      exact ⟨⟨fun within => plain _ (front _ within) rfl, free⟩,
        fun within => plain _ (back _ within) rfl⟩
    · rw [Text.trim_of_padded trimmed front back, String.ofList_toList]
  · rintro ⟨front, rest, cutting, rfl, rfl⟩
    obtain ⟨rfl, free⟩ := Text.cut_eq_some_iff.mp cutting
    obtain ⟨trimmed, before, behind, whole, front', back'⟩ :=
      Text.trim_eq_iff.mp (rfl : trim front = trim front)
    refine ⟨before, behind, rest, ?_, front', back', by simpa using trimmed, ?_, Text.spaced_iff.mpr rfl⟩
    · rw [String.toList_ofList, ← whole]
    · rw [String.toList_ofList]
      exact fun within => free (whole ▸ by simp [within])

theorem member_ok {word : List Char} {owner name : String} (isMember : IsMember word owner name) :
    member word = .ok (owner, name) := by
  obtain ⟨rfl, simple, owned, named⟩ := isMember
  rw [member, Text.cutLast?_eq_some_iff.mpr ⟨rfl, simple⟩]
  simp [owned, named]

theorem member_error {word : List Char} (noMember : ∀ owner name, ¬IsMember word owner name) :
    member word = .error .badMember := by
  rw [member]
  split
  next owner name cutting =>
    obtain ⟨rfl, simple⟩ := Text.cutLast?_eq_some_iff.mp cutting
    split
    next => rfl
    next begun =>
      simp only [Bool.or_eq_true, List.isEmpty_iff, not_or] at begun
      exact absurd ⟨by simp, by simpa using simple, by simpa using begun.1, by simpa using begun.2⟩
        (noMember (String.ofList owner) (String.ofList name))
  next => rfl

theorem isDescriptor_iff {text : List Char} :
    IsDescriptor text ↔ Descriptor.isMethod (String.ofList text) := by
  rw [Descriptor.isMethod_iff, String.toList_ofList]
  rfl

section

variable {chars : List Char}

theorem entry_record {found : MappingEntry} (record : Record chars found) : entry chars = .ok found := by
  -- A record is well-formed for its tag, so the reader finds its fields and takes them all.
  cases record with
  | package tagged =>
    obtain ⟨front, rest, cutting, tag, fields⟩ := tagged_iff.mp tagged
    simp only [entry, cutting, tag, fields, String.ofList_toList]
  | class_ tagged =>
    obtain ⟨front, rest, cutting, tag, fields⟩ := tagged_iff.mp tagged
    simp only [entry, cutting, tag, fields, String.ofList_toList]
  | field tagged old new =>
    obtain ⟨front, rest, cutting, tag, fields⟩ := tagged_iff.mp tagged
    simp only [entry, cutting, tag, fields, fieldEntry, member_ok old, member_ok new]
    rfl
  | method tagged old new described described' =>
    obtain ⟨front, rest, cutting, tag, fields⟩ := tagged_iff.mp tagged
    rw [isDescriptor_iff, String.ofList_toList] at described described'
    simp only [entry, cutting, tag, fields, methodEntry, member_ok old, member_ok new]
    simp [described, described', bind, Except.bind, pure, Except.pure]

/-- Two members of which one is none are refused. -/
theorem members_error {α : Type} {old new : List Char}
    (next : String × String → String × String → Except Reason α)
    (bad : (∀ owner name, ¬IsMember old owner name) ∨ ∀ owner name, ¬IsMember new owner name) :
    (member old >>= fun first => member new >>= next first) = .error .badMember := by
  by_cases none_ : ∀ owner name, ¬IsMember old owner name
  · rw [member_error none_]
    rfl
  · obtain ⟨owner, name, isMember⟩ : ∃ owner name, IsMember old owner name := by simpa using none_
    rw [member_ok isMember, member_error (bad.resolve_left none_)]
    rfl

theorem entry_wrong {reason : Reason} (wrong : Wrong chars reason) : entry chars = .error reason := by
  -- The faults stand in the order in which the reader looks for them.
  cases wrong with
  | missingTag free => simp only [entry, Text.cut_of_notMem free]
  | unknownTag tagged unknown =>
    obtain ⟨front, rest, cutting, tag, fields⟩ := tagged_iff.mp tagged
    simp only [entry, cutting, tag, fields]
    split
    next => exact absurd (by decide) unknown
    next => exact absurd (by decide) unknown
    next => exact absurd (by decide) unknown
    next => exact absurd (by decide) unknown
    next => exact if_neg unknown
  | fieldCount tagged known count =>
    obtain ⟨front, rest, cutting, tag, fields⟩ := tagged_iff.mp tagged
    simp only [entry, cutting, tag, fields]
    split
    next => exact absurd rfl count
    next => exact absurd rfl count
    next => exact absurd rfl count
    next => exact absurd rfl count
    next => exact if_pos known
  | badField tagged bad =>
    obtain ⟨front, rest, cutting, tag, fields⟩ := tagged_iff.mp tagged
    simp only [entry, cutting, tag, fields]
    exact members_error _ bad
  | badMethod tagged bad =>
    obtain ⟨front, rest, cutting, tag, fields⟩ := tagged_iff.mp tagged
    simp only [entry, cutting, tag, fields]
    exact members_error _ bad
  | badDescriptor tagged old new bad =>
    obtain ⟨front, rest, cutting, tag, fields⟩ := tagged_iff.mp tagged
    rw [isDescriptor_iff, isDescriptor_iff, ← not_and_or, ← Bool.and_eq_true] at bad
    simp only [entry, cutting, tag, fields, methodEntry, member_ok old, member_ok new]
    exact if_neg bad

theorem isMember_or_not (word : List Char) :
    (∃ owner name, IsMember word owner name) ∨ ∀ owner name, ¬IsMember word owner name := by
  simpa using Classical.em (∃ owner name, IsMember word owner name)

theorem field_or_wrong {old new : List Char} (tagged : Tagged chars "FD" [old, new]) :
    (∃ found, Record chars found) ∨ ∃ reason, Wrong chars reason := by
  obtain ⟨oldOwner, oldName, isMember⟩ | bad := isMember_or_not old
  case inr => exact .inr ⟨_, .badField tagged (.inl bad)⟩
  obtain ⟨newOwner, newName, isMember'⟩ | bad := isMember_or_not new
  case inr => exact .inr ⟨_, .badField tagged (.inr bad)⟩
  exact .inl ⟨_, .field tagged isMember isMember'⟩

theorem method_or_wrong {old new : List Char} {oldDescriptor newDescriptor : String}
    (tagged : Tagged chars "MD" [old, oldDescriptor.toList, new, newDescriptor.toList]) :
    (∃ found, Record chars found) ∨ ∃ reason, Wrong chars reason := by
  obtain ⟨oldOwner, oldName, isMember⟩ | bad := isMember_or_not old
  case inr => exact .inr ⟨_, .badMethod tagged (.inl bad)⟩
  obtain ⟨newOwner, newName, isMember'⟩ | bad := isMember_or_not new
  case inr => exact .inr ⟨_, .badMethod tagged (.inr bad)⟩
  by_cases described : IsDescriptor oldDescriptor.toList
  case neg => exact .inr ⟨_, .badDescriptor tagged isMember isMember' (.inl described)⟩
  by_cases described' : IsDescriptor newDescriptor.toList
  case neg => exact .inr ⟨_, .badDescriptor tagged isMember isMember' (.inr described')⟩
  exact .inl ⟨_, .method tagged isMember isMember' described described'⟩

/-- A line is a record, or something is wrong with it. -/
theorem record_or_wrong (chars : List Char) :
    (∃ found, Record chars found) ∨ ∃ reason, Wrong chars reason := by
  by_cases free : ':' ∉ chars
  · exact .inr ⟨_, .missingTag free⟩
  obtain ⟨front, rest, whole, first⟩ := List.eq_append_cons_of_mem (not_not.mp free)
  have tagged : Tagged chars (String.ofList (trim front)) (words rest) :=
    tagged_iff.mpr ⟨front, rest, Text.cut_eq_some_iff.mpr ⟨whole, first⟩, rfl, rfl⟩
  generalize String.ofList (trim front) = tag at tagged
  generalize words rest = fields at tagged
  by_cases known : tag ∈ tags
  case neg => exact .inr ⟨_, .unknownTag tagged known⟩
  by_cases count : fields.length = arity tag
  case neg => exact .inr ⟨_, .fieldCount tagged known count⟩
  -- The fields are taken as strings, since names and descriptors are.
  obtain ⟨fields, rfl⟩ : ∃ texts : List String, fields = texts.map String.toList :=
    ⟨fields.map String.ofList, by simp⟩
  rw [List.length_map] at count
  simp only [tags, List.mem_cons, List.not_mem_nil, or_false] at known
  obtain rfl | rfl | rfl | rfl := known
  case inl =>
    obtain ⟨old, new, rfl⟩ := List.length_eq_two.mp count
    exact .inl ⟨_, .package tagged⟩
  case inr.inl =>
    obtain ⟨old, new, rfl⟩ := List.length_eq_two.mp count
    exact .inl ⟨_, .class_ tagged⟩
  case inr.inr.inl =>
    obtain ⟨old, new, rfl⟩ := List.length_eq_two.mp count
    exact field_or_wrong tagged
  case inr.inr.inr =>
    obtain ⟨old, others, rfl⟩ := List.exists_cons_of_length_eq_add_one count
    obtain ⟨oldDescriptor, new, newDescriptor, rfl⟩ := List.length_eq_three.mp (Nat.succ.inj count)
    exact method_or_wrong tagged

theorem entry_ok_iff {found : MappingEntry} : entry chars = .ok found ↔ Record chars found := by
  refine ⟨fun read => ?_, entry_record⟩
  obtain ⟨other, record⟩ | ⟨reason, wrong⟩ := record_or_wrong chars
  · rw [entry_record record] at read
    exact Except.ok.inj read ▸ record
  · rw [entry_wrong wrong] at read
    cases read

theorem entry_error_iff {reason : Reason} : entry chars = .error reason ↔ Wrong chars reason := by
  refine ⟨fun refused => ?_, entry_wrong⟩
  obtain ⟨found, record⟩ | ⟨other, wrong⟩ := record_or_wrong chars
  · rw [entry_record record] at refused
    cases refused
  · rw [entry_wrong wrong] at refused
    exact Except.error.inj refused ▸ wrong

/-- Outer blanks make no difference to an entry. -/
theorem entry_trim (chars : List Char) : entry (trim chars) = entry chars := by
  have solid : isBlank ':' = false := by decide
  by_cases free : ':' ∉ chars
  · obtain ⟨-, before, after, whole, -⟩ := Text.trim_eq_iff.mp (rfl : trim chars = trim chars)
    have free' : ':' ∉ trim chars := fun within => free (whole ▸ by simp [within])
    rw [entry_wrong (.missingTag free), entry_wrong (.missingTag free')]
  · obtain ⟨front, rest, rfl, first⟩ := List.eq_append_cons_of_mem (not_not.mp free)
    have first' : ':' ∉ front.dropWhile isBlank := fun within =>
      first ((List.dropWhile_sublist isBlank).subset within)
    rw [Text.trim_append_cons solid]
    simp only [entry, Text.cut_eq_some_iff.mpr ⟨rfl, first⟩, Text.cut_eq_some_iff.mpr ⟨rfl, first'⟩,
      Text.trim_dropWhile, Text.words_trimEnd]

end

/-! ## Names in records -/

theorem Tagged.begun {chars word : List Char} {tag : String} {fields : List (List Char)}
    (tagged : Tagged chars tag fields) (member : word ∈ fields) : word ≠ [] := by
  obtain ⟨_, _, rest, _, _, _, _, _, spaced⟩ := tagged
  exact (spaced.solid member).1

theorem Tagged.solid {chars word : List Char} {tag : String} {fields : List (List Char)}
    (tagged : Tagged chars tag fields) (member : word ∈ fields) : ' ' ∉ word := by
  obtain ⟨_, _, rest, _, _, _, _, _, spaced⟩ := tagged
  intro within
  have solid := (spaced.solid member).2 ' ' within
  revert solid
  decide

theorem IsMember.solid {word : List Char} {owner name : String} (isMember : IsMember word owner name)
    (solid : ' ' ∉ word) : ' ' ∉ owner.toList ∧ MappingEntry.SimpleName name := by
  rw [isMember.spelled] at solid
  simp only [List.mem_append, List.mem_cons, not_or] at solid
  exact ⟨solid.1, solid.2.2, isMember.simple⟩

theorem Record.readable {chars : List Char} {found : MappingEntry} (record : Record chars found) :
    found.Readable := by
  cases record with
  | package tagged => exact .package (tagged.solid (by simp)) (tagged.solid (by simp))
  | class_ tagged => exact .class_ (tagged.solid (by simp)) (tagged.solid (by simp))
  | field tagged old new =>
    obtain ⟨owner, name⟩ := old.solid (tagged.solid (by simp))
    obtain ⟨newOwner, newName⟩ := new.solid (tagged.solid (by simp))
    exact .field owner newOwner name newName
  | method tagged old new =>
    obtain ⟨owner, name⟩ := old.solid (tagged.solid (by simp))
    obtain ⟨newOwner, newName⟩ := new.solid (tagged.solid (by simp))
    exact .method _ _ owner newOwner name newName

/-! ## Files -/

/-- The entries of lines that are all right. -/
inductive Reads : List String → List MappingEntry → Prop
  | nil : Reads [] []
  | blank {line : String} {lines : List String} {entries : List MappingEntry} :
      (∀ c ∈ content line, isBlank c) → Reads lines entries → Reads (line :: lines) entries
  | record {line : String} {found : MappingEntry} {lines : List String} {entries : List MappingEntry} :
      Record (content line) found → Reads lines entries → Reads (line :: lines) (found :: entries)

/-- What a line that is not blank does wrong behind the lines of these entries. -/
inductive Offends (number : Nat) (entries : List MappingEntry) (line : String) : SrgFault → Prop
  | malformed {c : Char} {reason : Reason} : c ∈ content line → isBlank c = false →
      Wrong (content line) reason → Offends number entries line (.badLine number line reason)
  | repeated {found : MappingEntry} : Record (content line) found →
      found.oldSymbol ∈ entries.map MappingEntry.oldSymbol →
      Offends number entries line (.duplicate found.key)

theorem Reads.records {lines : List String} {entries : List MappingEntry} (reads : Reads lines entries) :
    ∀ entry ∈ entries, ∃ line ∈ lines, Record (content line) entry := by
  induction reads with
  | nil => simp
  | blank _ _ ih =>
    intro entry member
    obtain ⟨line, within, record⟩ := ih entry member
    exact ⟨line, List.mem_cons_of_mem _ within, record⟩
  | record record _ ih =>
    refine List.forall_mem_cons.mpr ⟨⟨_, List.mem_cons_self, record⟩, fun entry member => ?_⟩
    obtain ⟨line, within, record⟩ := ih entry member
    exact ⟨line, List.mem_cons_of_mem _ within, record⟩

theorem Reads.readable {lines : List String} {entries : List MappingEntry} (reads : Reads lines entries)
    (entry : MappingEntry) (member : entry ∈ entries) : entry.Readable := by
  obtain ⟨line, -, record⟩ := reads.records entry member
  exact record.readable

theorem Record.not_blank {chars : List Char} {found : MappingEntry} (record : Record chars found) :
    ¬∀ c ∈ chars, isBlank c := by
  have colon : ∀ tag fields, Tagged chars tag fields → ¬∀ c ∈ chars, isBlank c := by
    rintro tag fields ⟨_, _, _, rfl, -⟩ blank
    have bare := blank ':' (by simp)
    revert bare
    decide
  cases record with
  | package tagged => exact colon _ _ tagged
  | class_ tagged => exact colon _ _ tagged
  | field tagged => exact colon _ _ tagged
  | method tagged => exact colon _ _ tagged

theorem trim_content (line : String) : trim (cut '#' line.toList).1 = trim (content line) := by
  rw [content, cut]
  split
  next nothing =>
    have whole := List.takeWhile_append_dropWhile (p := (· != '#')) (l := line.toList)
    rw [nothing, List.append_nil] at whole
    rw [whole]
  next => rfl

section

variable {number : Nat} {table : MappingTable} {line : String} {lines : List String}

theorem addLines_blank (blank : ∀ c ∈ content line, isBlank c) :
    addLines number table (line :: lines) = addLines (number + 1) table lines := by
  simp [addLines, trim_content, Text.trim_eq_nil_iff.mpr blank]

theorem addLines_solid (solid : ¬∀ c ∈ content line, isBlank c) :
    addLines number table (line :: lines) =
      ((entry (content line)).mapError (SrgFault.badLine number line) >>= fun found =>
        (table.push found).mapError SrgFault.duplicate >>= fun table =>
          addLines (number + 1) table lines) := by
  have begun : ¬(trim (content line)).isEmpty = true := by
    rw [List.isEmpty_iff, Text.trim_eq_nil_iff]
    exact solid
  simp only [addLines, trim_content, entry_trim]
  rw [if_neg begun]

variable {fault : SrgFault} (readable : ∀ entry ∈ table.entries, entry.Readable)
include readable

theorem addLines_offends (offends : Offends number table.entries line fault) :
    addLines number table (line :: lines) = .error fault := by
  cases offends with
  | malformed within solid wrong =>
    rw [addLines_solid fun blank => by simp [blank _ within] at solid, entry_wrong wrong]
    rfl
  | repeated record known =>
    rw [addLines_solid record.not_blank, entry_record record]
    have refused := (MappingTable.push_duplicate_iff readable record.readable).mpr ⟨known, rfl⟩
    simp only [Except.mapError, bind, Except.bind, refused]

/-- Lines that are all right add their entries and nothing else. -/
theorem addLines_append {before : List String} {found : List MappingEntry} (reads : Reads before found)
    (distinct : ((table.entries ++ found).map MappingEntry.oldSymbol).Nodup) :
    addLines number table (before ++ lines) =
      addLines (number + before.length) ⟨table.entries ++ found⟩ lines := by
  -- Both the line number and the table move on with each line, so the induction is for any of
  -- these.
  induction reads generalizing number table with
  | nil => simp
  | blank blank _ ih =>
    rw [List.cons_append, addLines_blank blank, ih readable distinct, List.length_cons,
      Nat.add_right_comm, Nat.add_assoc]
  | @record line entry before found record _ ih =>
    rw [List.append_cons] at distinct
    have front : ((table.entries ++ [entry]).map MappingEntry.oldSymbol).Nodup := by
      rw [List.map_append] at distinct
      exact (List.nodup_append.mp distinct).1
    have fresh := ((MappingTable.nodup_push rfl).mp front).2
    have pushed : table.push entry = .ok ⟨table.entries ++ [entry]⟩ :=
      (MappingTable.push_readable_iff readable record.readable).mpr ⟨fresh, rfl⟩
    have further := @ih (number + 1) ⟨table.entries ++ [entry]⟩
      (by simpa [or_imp, forall_and] using ⟨readable, record.readable⟩) distinct
    rw [List.cons_append, addLines_solid record.not_blank, entry_record record]
    simp only [Except.mapError, bind, Except.bind, pushed]
    rw [further, List.length_cons, Nat.add_right_comm, Nat.add_assoc,
      List.append_cons table.entries entry found]

end

theorem reads_append {first second : List String} {found others : List MappingEntry}
    (reads : Reads first found) (reads' : Reads second others) :
    Reads (first ++ second) (found ++ others) := by
  induction reads with
  | nil => exact reads'
  | blank blank _ ih => exact .blank blank ih
  | record record _ ih => exact .record record ih

/-- A file is read to its end, or one of its lines is the first that does something wrong. -/
theorem reads_or_offends (lines : List String) :
    (∃ found, Reads lines found ∧ (found.map MappingEntry.oldSymbol).Nodup) ∨
      ∃ before line after found fault, lines = before ++ line :: after ∧ Reads before found ∧
        (found.map MappingEntry.oldSymbol).Nodup ∧ Offends (before.length + 1) found line fault := by
  -- The induction is on the last line, which makes no difference to a fault before it.
  induction lines using List.reverseRecOn with
  | nil => exact .inl ⟨[], .nil, List.nodup_nil⟩
  | append_singleton lines last ih =>
    obtain ⟨found, reads, distinct⟩ |
      ⟨before, line, after, found, fault, rfl, reads, distinct, offends⟩ := ih
    case inr =>
      exact .inr ⟨before, line, after ++ [last], found, fault, by simp, reads, distinct, offends⟩
    by_cases blank : ∀ c ∈ content last, isBlank c
    case pos =>
      exact .inl ⟨found, by simpa using reads_append reads (.blank blank .nil), distinct⟩
    obtain ⟨entry, record⟩ | ⟨reason, wrong⟩ := record_or_wrong (content last)
    case inr =>
      obtain ⟨c, within, solid⟩ : ∃ c ∈ content last, isBlank c = false := by simpa using blank
      exact .inr ⟨lines, last, [], found, _, rfl, reads, distinct, .malformed within solid wrong⟩
    by_cases known : entry.oldSymbol ∈ found.map MappingEntry.oldSymbol
    case pos => exact .inr ⟨lines, last, [], found, _, rfl, reads, distinct, .repeated record known⟩
    exact .inl ⟨found ++ [entry], reads_append reads (.record record .nil),
      (MappingTable.nodup_push rfl).mpr ⟨distinct, known⟩⟩

theorem parse_ok {text : String} {found : List MappingEntry} (reads : Reads (Text.lines text) found)
    (distinct : (found.map MappingEntry.oldSymbol).Nodup) : parse text = .ok ⟨found⟩ := by
  have whole : addLines 1 .empty (Text.lines text ++ []) =
      addLines (1 + (Text.lines text).length) ⟨MappingTable.empty.entries ++ found⟩ [] :=
    addLines_append (by simp [MappingTable.empty]) reads (by simpa [MappingTable.empty] using distinct)
  rw [List.append_nil] at whole
  simpa [parse, MappingTable.empty, addLines] using whole

theorem parse_error {text line : String} {before after : List String} {found : List MappingEntry}
    {fault : SrgFault} (whole : Text.lines text = before ++ line :: after) (reads : Reads before found)
    (distinct : (found.map MappingEntry.oldSymbol).Nodup)
    (offends : Offends (before.length + 1) found line fault) : parse text = .error fault := by
  rw [parse, whole, addLines_append (by simp [MappingTable.empty]) reads
    (by simpa [MappingTable.empty] using distinct)]
  exact addLines_offends reads.readable (by simpa [MappingTable.empty, Nat.add_comm] using offends)

theorem parse_ok_iff {text : String} {table : MappingTable} :
    parse text = .ok table ↔
      Reads (Text.lines text) table.entries ∧ (table.entries.map MappingEntry.oldSymbol).Nodup := by
  constructor
  · intro parsed
    obtain ⟨found, reads, distinct⟩ | ⟨_, _, _, _, _, whole, reads, distinct, offends⟩ :=
      reads_or_offends (Text.lines text)
    · rw [parse_ok reads distinct] at parsed
      obtain rfl := Except.ok.inj parsed
      exact ⟨reads, distinct⟩
    · rw [parse_error whole reads distinct offends] at parsed
      cases parsed
  · rintro ⟨reads, distinct⟩
    exact parse_ok reads distinct

theorem parse_error_iff {text : String} {fault : SrgFault} :
    parse text = .error fault ↔ ∃ before line after found,
      Text.lines text = before ++ line :: after ∧ Reads before found ∧
        (found.map MappingEntry.oldSymbol).Nodup ∧ Offends (before.length + 1) found line fault := by
  constructor
  · intro refused
    obtain ⟨found, reads, distinct⟩ |
      ⟨before, line, after, found, other, whole, reads, distinct, offends⟩ :=
      reads_or_offends (Text.lines text)
    · rw [parse_ok reads distinct] at refused
      cases refused
    · rw [parse_error whole reads distinct offends] at refused
      exact ⟨before, line, after, found, whole, reads, distinct, Except.error.inj refused ▸ offends⟩
  · rintro ⟨before, line, after, found, whole, reads, distinct, offends⟩
    exact parse_error whole reads distinct offends

/-- What is read is a table of the usual kind, as long as no package gets a name with a dollar sign. -/
theorem conventional_of_parse {text : String} {table : MappingTable} (parsed : parse text = .ok table)
    (plain : ∀ entry ∈ table.entries, entry.kind = .package → '$' ∉ entry.newOwner.toList) :
    table.Conventional where
  plain := plain
  bare entry member kinds := by
    cases (parse_ok_iff.mp parsed).1.readable entry member with
    | package | class_ => exact ⟨rfl, rfl⟩
    | field | method => simp at kinds
  named entry member kinds := by
    obtain ⟨line, -, record⟩ := (parse_ok_iff.mp parsed).1.records entry member
    cases record with
    | @class_ old new tagged =>
      have begun : old.toList ≠ [] := tagged.begun (by simp)
      have newBegun : new.toList ≠ [] := tagged.begun (by simp)
      exact ⟨mt String.toList_eq_nil_iff.mpr begun, mt String.toList_eq_nil_iff.mpr newBegun⟩
    | package | field | method => cases kinds

/-- A text is read as the records that stand on its lines, or its first wrong line is told. What is read
is looked up and turned around by the symbols in it. -/
theorem parse_by_lines (text : String) :
    (∀ table, parse text = .ok table ↔
      Reads (Text.lines text) table.entries ∧ (table.entries.map MappingEntry.oldSymbol).Nodup) ∧
    (∀ fault, parse text = .error fault ↔ ∃ before line after found,
      Text.lines text = before ++ line :: after ∧ Reads before found ∧
        (found.map MappingEntry.oldSymbol).Nodup ∧ Offends (before.length + 1) found line fault) ∧
    ∀ table, parse text = .ok table →
      (∀ owner name new, table.field? owner name = some new ↔
        ∃ newOwner, ⟨.field, owner, newOwner, some name, some new, none, none⟩ ∈ table.entries) ∧
      (∀ owner name descriptor new, table.method? owner name descriptor = some new ↔
        ∃ newOwner newDescriptor, ⟨.method, owner, newOwner, some name, some new, some descriptor,
          some newDescriptor⟩ ∈ table.entries) ∧
      ((∃ inverse, table.inverse = .ok inverse) ↔
        (table.entries.map MappingEntry.newSymbol).Nodup) ∧
      ∀ inverse, table.inverse = .ok inverse → inverse.inverse = .ok table := by
  refine ⟨fun _ => parse_ok_iff, fun _ => parse_error_iff, fun table parsed => ?_⟩
  obtain ⟨reads, distinct⟩ := parse_ok_iff.mp parsed
  refine ⟨fun _ _ _ => MappingTable.field?_eq_some_iff reads.readable distinct,
    fun _ _ _ _ => MappingTable.method?_eq_some_iff reads.readable distinct,
    MappingTable.exists_inverse_iff reads.readable, fun inverse inverted => ?_⟩
  exact MappingTable.inverse_inverse ((MappingEntry.nodup_keys_iff reads.readable).mpr distinct) inverted

/-- A class and a field of it, with a comment and an empty line. -/
def widget : String := "CL: a/b/C com/Widget # moved\n\nFD: a/b/C/x com/Widget/value"

theorem parse_by_lines_widget : ∃ table inverse, parse widget = .ok table ∧
    table.field? "a/b/C" "x" = some "value" ∧ table.inverse = .ok inverse ∧
    inverse.inverse = .ok table := by
  obtain ⟨-, -, parsed⟩ := parse_by_lines widget
  obtain ⟨fields, -, inverts, back⟩ := parsed ⟨[.ofOwners .class_ "a/b/C" "com/Widget",
    ⟨.field, "a/b/C", "com/Widget", some "x", some "value", none, none⟩]⟩ rfl
  obtain ⟨inverse, inverted⟩ := inverts.mpr (by decide)
  exact ⟨_, inverse, rfl, (fields ..).mpr ⟨"com/Widget", by simp⟩, inverted, back inverse inverted⟩

end JarRemap.Srg
