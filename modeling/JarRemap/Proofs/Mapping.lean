import Mathlib.Data.List.Nodup
import JarRemap.Proofs.Outcome
import JarRemap.SymbolMap

/-!
# Looking members up

A field and a method are looked up alike, in a class and then in its ancestors. The inverse of a
table has each entry read backwards, and nothing else.
-/

namespace JarRemap

def MemberKind.mapping : MemberKind → MappingKind
  | field => .field
  | method => .method

/-- The new name of a member, if the entry is for it. -/
def MappingEntry.member? (kind : MemberKind) (owner name descriptor : String)
    (entry : MappingEntry) : Option String :=
  match kind with
  | .field => entry.field? owner name
  | .method => entry.method? owner name descriptor

theorem MappingEntry.member?_eq_some_iff (kind : MemberKind) (owner name descriptor new : String)
    (entry : MappingEntry) :
    entry.member? kind owner name descriptor = some new ↔ entry.kind = kind.mapping ∧
      entry.oldOwner = owner ∧ entry.oldMember = some name ∧
      (kind = .method → entry.oldDescriptor = some descriptor) ∧ entry.newMember = some new := by
  -- Fields are looked up without their descriptors.
  cases kind with
  | field =>
    simp only [member?, field?, MemberKind.mapping]
    split
    next same => simp [same]
    next other =>
      simp only [reduceCtorEq, false_implies, true_and, false_iff]
      rintro ⟨kind, owner, name, -⟩
      exact other ⟨kind, owner, name⟩
  | method =>
    simp only [member?, method?, MemberKind.mapping]
    split
    next same => simp [same]
    next other =>
      simp only [reduceCtorEq, true_implies, false_iff]
      rintro ⟨kind, owner, name, descriptor, -⟩
      exact other ⟨kind, owner, name, descriptor⟩

namespace MappingTable

theorem knows_iff {table : MappingTable} {key : String} :
    table.entries.any (·.key == key) ↔ key ∈ table.entries.map MappingEntry.key := by
  simp

theorem push_ok_iff {table after : MappingTable} {entry : MappingEntry} :
    table.push entry = .ok after ↔
      entry.key ∉ table.entries.map MappingEntry.key ∧ after.entries = table.entries ++ [entry] := by
  rw [push, ← knows_iff]
  split
  next known => simp [known]
  next fresh =>
    simp only [fresh, Except.ok.injEq]
    constructor
    · rintro rfl
      exact ⟨nofun, rfl⟩
    · rintro ⟨-, whole⟩
      cases after
      exact congrArg MappingTable.mk whole.symm

theorem push_error_iff {table : MappingTable} {entry : MappingEntry} {key : String} :
    table.push entry = .error key ↔
      entry.key ∈ table.entries.map MappingEntry.key ∧ entry.key = key := by
  rw [push, ← knows_iff]
  split
  next known => simp [known]
  next fresh => simp [fresh]

/-- With one more entry nothing is there twice if what that entry adds is new. -/
theorem nodup_push {α : Type} {part : MappingEntry → α} {before after : List MappingEntry}
    {entry : MappingEntry} (whole : after = before ++ [entry]) :
    (after.map part).Nodup ↔ (before.map part).Nodup ∧ part entry ∉ before.map part := by
  rw [whole, List.map_append, List.map_singleton, ← List.concat_eq_append, List.nodup_concat, and_comm]

/-- Entries are turned around onto a table if no key comes up twice. -/
theorem turnOnto_ok_iff (entries : List MappingEntry) {before after : MappingTable}
    (distinct : (before.entries.map MappingEntry.key).Nodup) :
    entries.foldlM (fun inverse entry => inverse.push entry.inverted) before = .ok after ↔
      after.entries = before.entries ++ entries.map MappingEntry.inverted ∧
        (after.entries.map MappingEntry.key).Nodup := by
  induction entries generalizing before with
  | nil =>
    rw [List.foldlM_nil, pure_ok_iff, List.map_nil, List.append_nil]
    constructor
    · rintro rfl
      exact ⟨rfl, distinct⟩
    · rintro ⟨same, -⟩
      cases before
      cases after
      exact congrArg MappingTable.mk same.symm
  | cons entry entries ih =>
    rw [List.foldlM_cons, bind_ok_iff, List.map_cons, List.append_cons]
    constructor
    · rintro ⟨middle, pushed, rest⟩
      obtain ⟨fresh, whole⟩ := push_ok_iff.mp pushed
      rw [← whole]
      exact (ih ((nodup_push whole).mpr ⟨distinct, fresh⟩)).mp rest
    · rintro ⟨whole, apart⟩
      -- What has no key twice has none twice at its front.
      have front : ((before.entries ++ [entry.inverted]).map MappingEntry.key).Nodup := by
        rw [whole, List.map_append] at apart
        exact (List.nodup_append.mp apart).1
      have fresh := ((nodup_push rfl).mp front).2
      exact ⟨⟨before.entries ++ [entry.inverted]⟩, push_ok_iff.mpr ⟨fresh, rfl⟩,
        (ih front).mpr ⟨whole, apart⟩⟩

/-- The inverse has the entries backwards, if no two of them have the same key then. -/
theorem inverse_ok_iff {table inverse : MappingTable} :
    table.inverse = .ok inverse ↔ inverse.entries = table.entries.map MappingEntry.inverted ∧
      (inverse.entries.map MappingEntry.key).Nodup :=
  turnOnto_ok_iff table.entries List.nodup_nil

theorem inverse_ok {table inverse : MappingTable} (inverted : table.inverse = .ok inverse) :
    inverse.entries = table.entries.map MappingEntry.inverted :=
  (inverse_ok_iff.mp inverted).1

theorem exists_of_ask {α : Type} {table : MappingTable} {answer : MappingEntry → Option α} {value : α}
    (asked : table.ask answer = some value) : ∃ entry ∈ table.entries, answer entry = some value := by
  obtain ⟨entry, member, said⟩ := List.exists_of_findSome?_eq_some asked
  exact ⟨entry, List.mem_reverse.mp member, said⟩

theorem ask_eq_none_iff {α : Type} {table : MappingTable} {answer : MappingEntry → Option α} :
    table.ask answer = none ↔ ∀ entry ∈ table.entries, answer entry = none := by
  simp [ask]

/-- A member is found again under its new name if all entries for it lead to classes that are looked
at on the way back, and none that is found there is for another member. -/
theorem lookup_back {table inverse : MappingTable} {kind : MemberKind}
    {name descriptor new newDescriptor : String} {classes others : List String}
    (inverted : table.inverse = .ok inverse)
    (leads : ∀ class_ ∈ classes, ∀ entry ∈ table.entries,
      entry.member? kind class_ name descriptor = some new → entry.newOwner ∈ others ∧
        (kind = .method → entry.newDescriptor = some newDescriptor))
    (only : ∀ class_ ∈ others, ∀ entry ∈ table.entries, ∀ old,
      entry.inverted.member? kind class_ new newDescriptor = some old → old = name)
    (named : (classes.findSome? fun class_ =>
      table.ask (MappingEntry.member? kind class_ name descriptor)).getD name = new) :
    (others.findSome? fun class_ =>
      inverse.ask (MappingEntry.member? kind class_ new newDescriptor)).getD new = name := by
  have entries := inverse_ok inverted
  cases back : others.findSome? fun class_ =>
      inverse.ask (MappingEntry.member? kind class_ new newDescriptor) with
  | some old =>
    obtain ⟨class_, among, asked⟩ := List.exists_of_findSome?_eq_some back
    obtain ⟨_, turned, said⟩ := exists_of_ask asked
    rw [entries] at turned
    obtain ⟨entry, member, rfl⟩ := List.mem_map.mp turned
    exact only class_ among entry member old said
  | none =>
    cases found : classes.findSome? fun class_ =>
        table.ask (MappingEntry.member? kind class_ name descriptor) with
    | none => simpa [found] using named.symm
    | some other =>
      -- The entry that gave the new name would have been found on the way back.
      obtain rfl : other = new := by simpa [found] using named
      obtain ⟨class_, among, asked⟩ := List.exists_of_findSome?_eq_some found
      obtain ⟨entry, member, said⟩ := exists_of_ask asked
      obtain ⟨kinds, -, old, -, renamed⟩ := (entry.member?_eq_some_iff _ _ _ _ _).mp said
      obtain ⟨owner, described⟩ := leads class_ among entry member said
      have missed := ask_eq_none_iff.mp (List.findSome?_eq_none_iff.mp back _ owner) entry.inverted
        (entries ▸ List.mem_map_of_mem member)
      rw [(entry.inverted.member?_eq_some_iff kind entry.newOwner other newDescriptor name).mpr
        ⟨kinds, rfl, renamed, described, old⟩] at missed
      cases missed

end MappingTable

namespace SymbolMap

/-- A member is looked up in its class and then in the ancestors of that, unless its name is
reserved. -/
theorem member?_eq (symbols : SymbolMap) (kind : MemberKind) (owner name descriptor : String) :
    symbols.member? kind owner name descriptor =
      if kind = .method ∧ name ∈ reservedMethods then none
      else (owner :: symbols.hierarchy.ancestors owner).findSome? fun class_ =>
        symbols.table.ask (MappingEntry.member? kind class_ name descriptor) := by
  have chain : ∀ look : String → Option String,
      symbols.inherited owner look = (owner :: symbols.hierarchy.ancestors owner).findSome? look := by
    intro look
    rw [inherited, List.findSome?_cons]
    cases look owner <;> rfl
  cases kind with
  | field =>
    rw [if_neg (by simp), member?, chain]
    rfl
  | method =>
    simp only [member?, chain, true_and]
    rfl

/-- As `MappingTable.lookup_back`, for all classes that a member is looked up in. -/
theorem member_back {symbols back : SymbolMap} {kind : MemberKind}
    {owner name descriptor newOwner new newDescriptor : String}
    (inverted : symbols.table.inverse = .ok back.table)
    (unreserved : ∀ entry ∈ symbols.table.entries, entry.kind = .method → ∀ name,
      entry.newMember = some name → name ∉ reservedMethods)
    (leads : ∀ class_ ∈ owner :: symbols.hierarchy.ancestors owner, ∀ entry ∈ symbols.table.entries,
      entry.member? kind class_ name descriptor = some new →
      entry.newOwner ∈ newOwner :: back.hierarchy.ancestors newOwner ∧
        (kind = .method → entry.newDescriptor = some newDescriptor))
    (only : ∀ class_ ∈ newOwner :: back.hierarchy.ancestors newOwner,
      ∀ entry ∈ symbols.table.entries, ∀ old,
      entry.inverted.member? kind class_ new newDescriptor = some old → old = name)
    (named : (symbols.member? kind owner name descriptor).getD name = new) :
    (back.member? kind newOwner new newDescriptor).getD new = name := by
  rw [member?_eq] at named ⊢
  by_cases reserved : kind = .method ∧ name ∈ reservedMethods
  · rw [if_pos reserved] at named
    obtain rfl : name = new := named
    rw [if_pos reserved]
    rfl
  · rw [if_neg reserved] at named
    -- A new name is the old one or stands in an entry, and neither is reserved.
    have free : ¬ (kind = .method ∧ new ∈ reservedMethods) := by
      rintro ⟨rfl, reserves⟩
      cases found : (owner :: symbols.hierarchy.ancestors owner).findSome? fun class_ =>
          symbols.table.ask (MappingEntry.member? .method class_ name descriptor) with
      | none =>
        obtain rfl : name = new := by simpa [found] using named
        exact reserved ⟨rfl, reserves⟩
      | some other =>
        obtain rfl : other = new := by simpa [found] using named
        obtain ⟨class_, -, asked⟩ := List.exists_of_findSome?_eq_some found
        obtain ⟨entry, member, said⟩ := MappingTable.exists_of_ask asked
        obtain ⟨kinds, -, -, -, renamed⟩ := (entry.member?_eq_some_iff _ _ _ _ _).mp said
        exact unreserved entry member kinds other renamed reserves
    rw [if_neg free]
    exact MappingTable.lookup_back inverted leads only named

end SymbolMap

end JarRemap
