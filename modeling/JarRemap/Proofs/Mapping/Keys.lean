import JarRemap.Proofs.Mapping
import JarRemap.Proofs.Text.Pieces

/-!
# Symbols and their keys

A table tells old symbols apart by keys, in which the parts of a symbol run together. No two symbols
have the same key if their names are words: the parts are then found again at the first blanks and at
the last slash of a key.
-/

namespace JarRemap

/-- What an entry is for. -/
structure Symbol where
  kind : MappingKind
  owner : String
  member : Option String
  descriptor : Option String
deriving DecidableEq, Repr

theorem MappingKind.blank_notMem_text (kind : MappingKind) : ' ' ∉ kind.text.toList := by
  cases kind <;> decide

theorem MappingKind.text_inj {kind other : MappingKind} (same : kind.text.toList = other.text.toList) :
    kind = other := by
  revert same
  cases kind <;> cases other <;> decide

namespace MappingEntry

def oldSymbol (entry : MappingEntry) : Symbol :=
  ⟨entry.kind, entry.oldOwner, entry.oldMember, entry.oldDescriptor⟩

def newSymbol (entry : MappingEntry) : Symbol :=
  ⟨entry.kind, entry.newOwner, entry.newMember, entry.newDescriptor⟩

/-- The name of a member, in one word. -/
def SimpleName (name : String) : Prop := ' ' ∉ name.toList ∧ '/' ∉ name.toList

/-- An entry with names in one word, and with only the parts that its kind has. -/
inductive Readable : MappingEntry → Prop
  | package {old new : String} :
      ' ' ∉ old.toList → ' ' ∉ new.toList → Readable (.ofOwners .package old new)
  | class_ {old new : String} :
      ' ' ∉ old.toList → ' ' ∉ new.toList → Readable (.ofOwners .class_ old new)
  | field {oldOwner newOwner oldName newName : String} :
      ' ' ∉ oldOwner.toList → ' ' ∉ newOwner.toList → SimpleName oldName → SimpleName newName →
        Readable ⟨.field, oldOwner, newOwner, some oldName, some newName, none, none⟩
  | method {oldOwner newOwner oldName newName : String} (oldDescriptor newDescriptor : String) :
      ' ' ∉ oldOwner.toList → ' ' ∉ newOwner.toList → SimpleName oldName → SimpleName newName →
        Readable ⟨.method, oldOwner, newOwner, some oldName, some newName, some oldDescriptor,
          some newDescriptor⟩

theorem Readable.inverted {entry : MappingEntry} (readable : entry.Readable) :
    entry.inverted.Readable := by
  cases readable with
  | package old new => exact .package new old
  | class_ old new => exact .class_ new old
  | field owner newOwner name newName => exact .field newOwner owner newName name
  | method descriptor newDescriptor owner newOwner name newName =>
    exact .method newDescriptor descriptor newOwner owner newName name

/-- Only methods have a descriptor. -/
theorem Readable.described {entry : MappingEntry} (readable : entry.Readable)
    (kinds : entry.kind = .field) : entry.oldDescriptor = none := by
  cases readable with
  | field => rfl
  | package | class_ | method => cases kinds

/-- The key behind the kind. -/
def keyRest (entry : MappingEntry) : List Char :=
  entry.oldOwner.toList ++ ((match entry.oldMember with
    | some name => '/' :: name.toList
    | none => []) ++ match entry.oldDescriptor with
    | some text => ' ' :: text.toList
    | none => [])

theorem key_toList (entry : MappingEntry) :
    entry.key.toList = entry.kind.text.toList ++ ' ' :: entry.keyRest := by
  obtain ⟨kind, owner, -, member, -, descriptor, -⟩ := entry
  cases member <;> cases descriptor <;> simp [key, keyRest]

theorem member_inj {owner name other otherName : String} (simple : SimpleName name)
    (simple' : SimpleName otherName)
    (same : owner.toList ++ '/' :: name.toList = other.toList ++ '/' :: otherName.toList) :
    owner = other ∧ name = otherName := by
  simpa [String.toList_inj] using Text.last_mark_inj simple.2 simple'.2 same

/-- A key belongs to one symbol. -/
theorem Readable.symbol_of_key {entry other : MappingEntry} (readable : entry.Readable)
    (readable' : other.Readable) (same : entry.key = other.key) : entry.oldSymbol = other.oldSymbol := by
  have whole := congrArg String.toList same
  rw [key_toList, key_toList] at whole
  obtain ⟨texts, rests⟩ :=
    Text.first_mark_inj entry.kind.blank_notMem_text other.kind.blank_notMem_text whole
  -- A key begins with the kind, so both entries are of the same kind.
  have kinds := MappingKind.text_inj texts
  cases readable with
  | package =>
    cases readable' with
    | package => simpa [keyRest, ofOwners, oldSymbol, String.toList_inj] using rests
    | class_ | field | method => cases kinds
  | class_ =>
    cases readable' with
    | class_ => simpa [keyRest, ofOwners, oldSymbol, String.toList_inj] using rests
    | package | field | method => cases kinds
  | field _ _ simple =>
    cases readable' with
    | field _ _ simple' =>
      obtain ⟨rfl, rfl⟩ := member_inj simple simple' (by simpa [keyRest] using rests)
      rfl
    | package | class_ | method => cases kinds
  | method descriptor _ owner _ simple =>
    cases readable' with
    | method descriptor' _ owner' _ simple' =>
      simp only [keyRest, ← List.append_assoc] at rests
      -- A blank stands in front of the descriptor, and none stands in the name of the member.
      obtain ⟨members, descriptors⟩ := Text.first_mark_inj (by simp [owner, simple.1])
        (by simp [owner', simple'.1]) rests
      obtain ⟨rfl, rfl⟩ := member_inj simple simple' members
      obtain rfl := String.toList_inj.mp descriptors
      rfl
    | package | class_ | field => cases kinds

theorem key_of_symbol {entry other : MappingEntry} (same : entry.oldSymbol = other.oldSymbol) :
    entry.key = other.key := by
  obtain ⟨kinds, owners, members, descriptors⟩ := Symbol.mk.inj same
  rw [key, key, kinds, owners, members, descriptors]

theorem nodup_keys_iff {entries : List MappingEntry} (readable : ∀ entry ∈ entries, entry.Readable) :
    (entries.map key).Nodup ↔ (entries.map oldSymbol).Nodup := by
  rw [List.Nodup, List.Nodup, List.pairwise_map, List.pairwise_map]
  refine List.Pairwise.iff_of_mem fun {entry other} member member' =>
    not_congr ⟨fun same => ?_, key_of_symbol⟩
  exact (readable entry member).symbol_of_key (readable other member') same

theorem mem_keys_iff {entries : List MappingEntry} {entry : MappingEntry}
    (readable : ∀ other ∈ entries, other.Readable) (readable' : entry.Readable) :
    entry.key ∈ entries.map key ↔ entry.oldSymbol ∈ entries.map oldSymbol := by
  simp only [List.mem_map]
  constructor
  · rintro ⟨other, member, same⟩
    exact ⟨other, member, (readable other member).symbol_of_key readable' same⟩
  · rintro ⟨other, member, same⟩
    exact ⟨other, member, key_of_symbol same⟩

end MappingEntry

namespace MappingTable

variable {table inverse : MappingTable}

section

variable {after : MappingTable} {entry : MappingEntry}
  (readable : ∀ other ∈ table.entries, other.Readable) (readable' : entry.Readable)
include readable readable'

theorem push_readable_iff : table.push entry = .ok after ↔
    entry.oldSymbol ∉ table.entries.map MappingEntry.oldSymbol ∧
      after.entries = table.entries ++ [entry] := by
  rw [push_ok_iff, MappingEntry.mem_keys_iff readable readable']

theorem push_duplicate_iff {key : String} : table.push entry = .error key ↔
    entry.oldSymbol ∈ table.entries.map MappingEntry.oldSymbol ∧ entry.key = key := by
  rw [push_error_iff, MappingEntry.mem_keys_iff readable readable']

end

/-- If all entries that have an answer have the same, that is the answer. -/
theorem ask_eq_some_iff {α : Type} {answer : MappingEntry → Option α} {value : α}
    (agree : ∀ entry ∈ table.entries, ∀ other ∈ table.entries, ∀ said said',
      answer entry = some said → answer other = some said' → said = said') :
    table.ask answer = some value ↔ ∃ entry ∈ table.entries, answer entry = some value := by
  constructor
  · exact exists_of_ask
  · rintro ⟨entry, member, said⟩
    cases asked : table.ask answer with
    | none =>
      have silent := ask_eq_none_iff.mp asked entry member
      rw [said] at silent
      cases silent
    | some other =>
      obtain ⟨entry', member', said'⟩ := exists_of_ask asked
      rw [agree entry' member' entry member other value said' said]

section

variable (readable : ∀ entry ∈ table.entries, entry.Readable)
include readable

section

variable (distinct : (table.entries.map MappingEntry.oldSymbol).Nodup)
include distinct

theorem ask_member?_eq_some_iff {kind : MemberKind} {owner name descriptor new : String} :
    table.ask (MappingEntry.member? kind owner name descriptor) = some new ↔
      ∃ entry ∈ table.entries, entry.member? kind owner name descriptor = some new := by
  refine ask_eq_some_iff fun entry member other member' said said' found found' => ?_
  rw [MappingEntry.member?_eq_some_iff] at found found'
  obtain ⟨kinds, owners, names, descriptors, news⟩ := found
  obtain ⟨kinds', owners', names', descriptors', news'⟩ := found'
  -- Two entries that answer have one symbol, which only one of them can have. A search for a field
  -- does not look at descriptors, and entries for fields have none.
  have described : entry.oldDescriptor = other.oldDescriptor := by
    cases kind with
    | field => rw [(readable entry member).described kinds, (readable other member').described kinds']
    | method => rw [descriptors rfl, descriptors' rfl]
  have same : entry.oldSymbol = other.oldSymbol := by
    rw [MappingEntry.oldSymbol, MappingEntry.oldSymbol, kinds, kinds', owners, owners', names, names',
      described]
  obtain rfl := List.inj_on_of_nodup_map distinct member member' same
  exact Option.some.inj (news.symm.trans news')

theorem field?_eq_some_iff {owner name new : String} : table.field? owner name = some new ↔
    ∃ newOwner, ⟨.field, owner, newOwner, some name, some new, none, none⟩ ∈ table.entries := by
  have asked : table.field? owner name = table.ask (MappingEntry.member? .field owner name "") := rfl
  rw [asked, ask_member?_eq_some_iff readable distinct]
  simp only [MappingEntry.member?_eq_some_iff]
  constructor
  · rintro ⟨entry, member, kinds, owners, names, -, news⟩
    cases readable entry member with
    | field =>
      obtain rfl := owners
      obtain rfl := Option.some.inj names
      obtain rfl := Option.some.inj news
      exact ⟨_, member⟩
    | package | class_ | method => cases kinds
  · rintro ⟨newOwner, member⟩
    exact ⟨_, member, rfl, rfl, rfl, nofun, rfl⟩

theorem method?_eq_some_iff {owner name descriptor new : String} :
    table.method? owner name descriptor = some new ↔ ∃ newOwner newDescriptor,
      ⟨.method, owner, newOwner, some name, some new, some descriptor, some newDescriptor⟩ ∈
        table.entries := by
  have asked : table.method? owner name descriptor =
    table.ask (MappingEntry.member? .method owner name descriptor) := rfl
  rw [asked, ask_member?_eq_some_iff readable distinct]
  simp only [MappingEntry.member?_eq_some_iff]
  constructor
  · rintro ⟨entry, member, kinds, owners, names, descriptors, news⟩
    -- A readable entry for a method has all its parts.
    cases readable entry member with
    | method =>
      obtain rfl := owners
      obtain rfl := Option.some.inj names
      obtain rfl := Option.some.inj (descriptors trivial)
      obtain rfl := Option.some.inj news
      exact ⟨_, _, member⟩
    | package | class_ | field => cases kinds
  · rintro ⟨newOwner, newDescriptor, member⟩
    exact ⟨_, member, rfl, rfl, rfl, fun _ => rfl, rfl⟩

end

theorem exists_inverse_iff :
    (∃ inverse, table.inverse = .ok inverse) ↔ (table.entries.map MappingEntry.newSymbol).Nodup := by
  have turned : ((table.entries.map MappingEntry.inverted).map MappingEntry.key).Nodup ↔
      (table.entries.map MappingEntry.newSymbol).Nodup := by
    have backwards : ∀ entry ∈ table.entries.map MappingEntry.inverted, entry.Readable := by
      simpa using fun entry member => (readable entry member).inverted
    rw [MappingEntry.nodup_keys_iff backwards, List.map_map]
    rfl
  rw [← turned]
  constructor
  · rintro ⟨inverse, inverted⟩
    obtain ⟨entries, distinct⟩ := inverse_ok_iff.mp inverted
    exact entries ▸ distinct
  · intro distinct
    exact ⟨⟨_⟩, inverse_ok_iff.mpr ⟨rfl, distinct⟩⟩

end

/-- Read backwards twice, a table is the same again. -/
theorem inverse_inverse (distinct : (table.entries.map MappingEntry.key).Nodup)
    (inverted : table.inverse = .ok inverse) : inverse.inverse = .ok table := by
  refine inverse_ok_iff.mpr ⟨?_, distinct⟩
  rw [inverse_ok inverted, List.map_map]
  exact (List.map_id _).symm

end MappingTable

end JarRemap
