import JarRemap.Proofs.Mapping.Keys
import JarRemap.Proofs.SymbolMap.Overrides

/-!
# Methods that are known by a name alone

A lookup without a descriptor goes through the methods of a table until one contradicts those before
it. The map in which a table keeps its methods lists them in any order, and in another one after an
entry is added. The answer is the same for all orders: only the new names that there are for the old
one decide it.
-/

namespace JarRemap

namespace RenamedMethod

/-! ## The search -/

section

variable (owner name : String)

/-- The new names that a search has found and those that it has still to come across. -/
def newNames (found : Option String) (methods : List RenamedMethod) : List String :=
  found.toList ++ (methods.filter fun method => method.owner = owner ∧ method.name = name).map newName

variable {owner name}

theorem newNames_other {found : Option String} {method : RenamedMethod} {rest : List RenamedMethod}
    (other : method.owner ≠ owner ∨ method.name ≠ name) :
    newNames owner name found (method :: rest) = newNames owner name found rest := by
  have apart : ¬(method.owner = owner ∧ method.name = name) := not_and_or.mpr other
  rw [newNames, newNames, List.filter_cons_of_neg (by simpa using apart)]

theorem newNames_same {found : Option String} {method : RenamedMethod} {rest : List RenamedMethod}
    (same : ¬(method.owner ≠ owner ∨ method.name ≠ name)) :
    newNames owner name found (method :: rest) =
      found.toList ++ newNames owner name (some method.newName) rest := by
  rw [newNames, newNames, List.filter_cons_of_pos (by simpa using same)]
  rfl

theorem mem_newNames_iff {methods : List RenamedMethod} {new : String} :
    new ∈ newNames owner name none methods ↔ ∃ descriptor, ⟨owner, name, descriptor, new⟩ ∈ methods := by
  simp only [newNames, Option.toList_none, List.nil_append, List.mem_map, List.mem_filter,
    decide_eq_true_eq]
  constructor
  · rintro ⟨method, ⟨member, rfl, rfl⟩, rfl⟩
    exact ⟨method.descriptor, member⟩
  · rintro ⟨descriptor, member⟩
    exact ⟨_, ⟨member, rfl, rfl⟩, rfl⟩

/-- What is found is a name that nothing contradicts, neither before nor behind. -/
theorem sharedName?_eq_some_iff_newNames {found : Option String} {methods : List RenamedMethod}
    {new : String} : sharedName? owner name found methods = some new ↔
      new ∈ newNames owner name found methods ∧
        ∀ other ∈ newNames owner name found methods, other = new := by
  -- Along the search, no name gets lost and none is added that was not there at the start.
  fun_induction sharedName? owner name found methods with
  | case1 found => cases found <;> simp [newNames, eq_comm]
  | case2 found method rest other ih => rw [ih, newNames_other other]
  | case3 method rest same previous differ =>
    -- Two names contradict each other, so no name is the only one.
    rw [newNames_same same]
    simp only [reduceCtorEq, Option.toList_some, List.singleton_append, false_iff]
    rintro ⟨-, only⟩
    have before := only previous (by simp)
    have here := only method.newName (by simp [newNames])
    exact differ (before.trans here.symm)
  | case4 method rest same previous agree ih =>
    -- The same name again is as good as having it once.
    obtain rfl : previous = method.newName := by simpa using agree
    rw [ih, newNames_same same]
    simp [newNames]
  | case5 method rest same ih =>
    rw [ih, newNames_same same]
    rfl

end

theorem sharedName?_eq_some_iff {owner name new : String} {methods : List RenamedMethod} :
    sharedName? owner name none methods = some new ↔
      (∃ descriptor, ⟨owner, name, descriptor, new⟩ ∈ methods) ∧
        ∀ other descriptor, ⟨owner, name, descriptor, other⟩ ∈ methods → other = new := by
  rw [sharedName?_eq_some_iff_newNames, mem_newNames_iff]
  simp only [mem_newNames_iff, forall_exists_index]

/-- Methods may be gone through in any order. -/
theorem sharedName?_perm {owner name : String} {methods shuffled : List RenamedMethod}
    (perm : shuffled.Perm methods) :
    sharedName? owner name none shuffled = sharedName? owner name none methods := by
  ext new
  rw [sharedName?_eq_some_iff, sharedName?_eq_some_iff]
  simp only [perm.mem_iff]

/-- What a map tells methods apart by. -/
def key (method : RenamedMethod) : String × String × String :=
  (method.owner, method.name, method.descriptor)

end RenamedMethod

/-! ## The methods of a table -/

namespace MappingEntry

theorem renamedMethod?_eq_some_iff (entry : MappingEntry) (method : RenamedMethod) :
    entry.renamedMethod? = some method ↔
      entry.member? .method method.owner method.name method.descriptor = some method.newName := by
  rw [member?_eq_some_iff]
  obtain ⟨kind, owner, -, name, new, descriptor, -⟩ := entry
  obtain ⟨owner', name', descriptor', new'⟩ := method
  cases kind <;> cases name <;> cases new <;> cases descriptor <;>
    simp [renamedMethod?, MemberKind.mapping]

/-- Entries for the same method have the same key. -/
theorem key_of_renamedMethod? {entry other : MappingEntry} {method method' : RenamedMethod}
    (found : entry.renamedMethod? = some method) (found' : other.renamedMethod? = some method')
    (same : method'.key = method.key) : other.key = entry.key := by
  rw [renamedMethod?_eq_some_iff, member?_eq_some_iff] at found found'
  obtain ⟨kind, owner, name, descriptor, -⟩ := found
  obtain ⟨kind', owner', name', descriptor', -⟩ := found'
  simp only [RenamedMethod.key, Prod.mk.injEq] at same
  obtain ⟨owners, names, descriptors⟩ := same
  apply key_of_symbol
  rw [oldSymbol, oldSymbol, kind, kind', owner, owner', name, name', descriptor rfl, descriptor' rfl,
    owners, names, descriptors]

/-- A map of methods after the entry. What the map has for the same method gives way. -/
def entered (entry : MappingEntry) (methods : List RenamedMethod) : List RenamedMethod :=
  match entry.renamedMethod? with
  | some method => method :: methods.filter fun other => other.key ≠ method.key
  | none => methods

end MappingEntry

namespace MappingTable

/-- The table has an entry for a method of this very class, with whatever descriptor, that gives it
the new name. -/
def RenamesNamed (table : MappingTable) (owner name new : String) : Prop :=
  ∃ descriptor, table.Renames .method owner name descriptor new

/-- There are such entries, and they all give the new name. -/
structure Unanimous (table : MappingTable) (owner name new : String) : Prop where
  renames : table.RenamesNamed owner name new
  only : ∀ other, table.RenamesNamed owner name other → other = new

theorem mem_methods_iff (table : MappingTable) (owner name descriptor new : String) :
    ⟨owner, name, descriptor, new⟩ ∈ table.methods ↔
      table.Renames .method owner name descriptor new := by
  simp only [methods, List.mem_filterMap, MappingEntry.renamedMethod?_eq_some_iff, renames_iff]

theorem methodByName?_eq_some_iff (table : MappingTable) (owner name new : String) :
    table.methodByName? owner name = some new ↔ table.Unanimous owner name new := by
  rw [methodByName?, RenamedMethod.sharedName?_eq_some_iff]
  simp only [mem_methods_iff]
  constructor
  · rintro ⟨renames, only⟩
    exact ⟨renames, fun other ⟨descriptor, renames⟩ => only other descriptor renames⟩
  · rintro ⟨renames, only⟩
    exact ⟨renames, fun other descriptor renames => only other ⟨descriptor, renames⟩⟩

/-! ## Orders -/

/-- The methods in the order in which the map that a table keeps of them is gone through. With each
entry that is added the map may be laid out anew. -/
inductive Enumerates : MappingTable → List RenamedMethod → Prop
  | empty : Enumerates .empty []
  | push {table after : MappingTable} {entry : MappingEntry} {order shuffled : List RenamedMethod} :
      Enumerates table order → table.push entry = .ok after →
        shuffled.Perm (entry.entered order) → Enumerates after shuffled

/-- A table takes no second entry for a method, so nothing has to give way. -/
theorem perm_entered {table after : MappingTable} {entry : MappingEntry} {order : List RenamedMethod}
    (pushed : table.push entry = .ok after) (perm : order.Perm table.methods) :
    (entry.entered order).Perm after.methods := by
  obtain ⟨fresh, whole⟩ := push_ok_iff.mp pushed
  have grown : after.methods = table.methods ++ entry.renamedMethod?.toList := by
    rw [methods, methods, whole, List.filterMap_append]
    cases found : entry.renamedMethod? <;> simp [found]
  rw [grown, MappingEntry.entered]
  cases found : entry.renamedMethod? with
  | none => simpa using perm
  | some method =>
    have kept : (order.filter fun other => other.key ≠ method.key) = order := by
      -- Every method in the order is from an entry of the table, and those have other keys.
      rw [List.filter_eq_self]
      intro other member
      obtain ⟨known, among, found'⟩ := List.mem_filterMap.mp (perm.mem_iff.mp member)
      rw [decide_eq_true_eq]
      intro same
      exact fresh (MappingEntry.key_of_renamedMethod? found found' same ▸ List.mem_map_of_mem among)
    dsimp only
    rw [kept]
    calc
      List.Perm (method :: order) (order ++ [method]) := (List.perm_append_singleton method order).symm
      List.Perm _ (table.methods ++ [method]) := perm.append_right [method]

/-- The map of a table can be in every order that its methods can be in. -/
theorem enumerates_iff {table : MappingTable} {order : List RenamedMethod} :
    table.Enumerates order ↔
      (table.entries.map MappingEntry.key).Nodup ∧ order.Perm table.methods := by
  constructor
  · intro enumerates
    induction enumerates with
    | empty => exact ⟨List.nodup_nil, .refl _⟩
    | push _ pushed shuffle ih =>
      obtain ⟨distinct, perm⟩ := ih
      obtain ⟨fresh, whole⟩ := push_ok_iff.mp pushed
      exact ⟨(nodup_push whole).mpr ⟨distinct, fresh⟩, shuffle.trans (perm_entered pushed perm)⟩
  · rintro ⟨distinct, perm⟩
    obtain ⟨entries⟩ := table
    -- The entries were added one by one, and only the last one has to bring the order about.
    induction entries using List.reverseRecOn generalizing order with
    | nil =>
      obtain rfl : order = [] := perm.eq_nil
      exact .empty
    | append_singleton entries entry ih =>
      obtain ⟨front, fresh⟩ := (nodup_push rfl).mp distinct
      have pushed : push ⟨entries⟩ entry = .ok ⟨entries ++ [entry]⟩ := push_ok_iff.mpr ⟨fresh, rfl⟩
      exact .push (ih front (.refl _)) pushed (perm.trans (perm_entered pushed (.refl _)).symm)

/-- In whatever order the methods of a table are gone through, a lookup by name alone has the same
answer: the new name that all entries of the class for the old name give, if there are any and they
agree. If not, nothing is found. -/
theorem methodByName?_any_order {table : MappingTable} {order : List RenamedMethod}
    (enumerates : table.Enumerates order) (owner name : String) :
    let answer := RenamedMethod.sharedName? owner name none order
    answer = table.methodByName? owner name ∧
      (∀ new, answer = some new ↔
        (∃ other, table.RenamesNamed owner name other) ∧
          ∀ other, table.RenamesNamed owner name other → other = new) ∧
      (answer = none ↔ ¬∃ new, table.Unanimous owner name new) := by
  intro answer
  have same : answer = table.methodByName? owner name :=
    RenamedMethod.sharedName?_perm (enumerates_iff.mp enumerates).2
  have unanimous : ∀ new, answer = some new ↔ table.Unanimous owner name new := by
    intro new
    rw [same, methodByName?_eq_some_iff]
  refine ⟨same, fun new => ?_, ?_⟩
  · rw [unanimous]
    constructor
    · rintro ⟨renames, only⟩
      exact ⟨⟨new, renames⟩, only⟩
    · rintro ⟨⟨other, renames⟩, only⟩
      exact ⟨only other renames ▸ renames, only⟩
  · simp only [← unanimous, Option.eq_none_iff_forall_ne_some, not_exists, ne_eq]

/-- The overloads of `C` agree on a new name, and those of `D` do not. -/
def overloads : MappingTable :=
  ⟨[⟨.method, "C", "p/C", some "a", some "run", some "()V", some "()V"⟩,
    ⟨.method, "D", "p/D", some "a", some "open", some "()V", some "()V"⟩,
    ⟨.field, "C", "p/C", some "a", some "count", none, none⟩,
    ⟨.method, "C", "p/C", some "b", some "stop", some "()V", some "()V"⟩,
    ⟨.method, "D", "p/D", some "a", some "close", some "(I)V", some "(I)V"⟩,
    ⟨.method, "C", "p/C", some "a", some "run", some "(I)V", some "(I)V"⟩]⟩

theorem methodByName?_any_order_overloads :
    let shuffled : List RenamedMethod :=
      [⟨"D", "a", "(I)V", "close"⟩, ⟨"C", "a", "(I)V", "run"⟩, ⟨"C", "b", "()V", "stop"⟩,
        ⟨"D", "a", "()V", "open"⟩, ⟨"C", "a", "()V", "run"⟩]
    overloads.Enumerates shuffled ∧
      RenamedMethod.sharedName? "C" "a" none shuffled = some "run" ∧
      RenamedMethod.sharedName? "D" "a" none shuffled = none := by
  intro shuffled
  have enumerates : overloads.Enumerates shuffled := enumerates_iff.mpr ⟨by decide, by decide⟩
  have agreeing := methodByName?_any_order enumerates "C" "a"
  have differing := methodByName?_any_order enumerates "D" "a"
  exact ⟨enumerates, agreeing.1.trans (by decide), differing.1.trans (by decide)⟩

end MappingTable

end JarRemap
