import JarRemap.Proofs.ClassFile.Frame
import JarRemap.Proofs.ConstantPool.Texts
import Mathlib.Data.List.Find

/-!
# Attributes and their names

An attribute is found by its name, and its name is found in the pool. As texts stay where they are,
an edit that gives one attribute another body leaves the others to be found as before.
-/

namespace JarRemap

open ConstantPool

namespace Attribute

/-! ## The first attribute with a name -/

/-- The first attribute with the name, between those in front of it and those behind it. -/
structure First (pool : ConstantPool) (name : String) (attributes front : List Attribute)
    (item : Attribute) (back : List Attribute) : Prop where
  split : attributes = front ++ item :: back
  named : pool.utf8 item.name = .ok name
  before : ∀ other ∈ front, pool.utf8 other.name ≠ .ok name

/-- No attribute has the name. -/
def Absent (pool : ConstantPool) (name : String) (attributes : List Attribute) : Prop :=
  ∀ item ∈ attributes, pool.utf8 item.name ≠ .ok name

section

variable {pool old new : ConstantPool} {name : String} {attributes front back : List Attribute}
  {item : Attribute}

theorem isNamed_iff : isNamed pool name item = true ↔ pool.utf8 item.name = .ok name :=
  hasText_iff pool

private theorem not_named_iff :
    isNamed pool name item = false ↔ pool.utf8 item.name ≠ .ok name := by
  rw [Ne, ← isNamed_iff, Bool.not_eq_true]

theorem first_or_absent (pool : ConstantPool) (name : String) (attributes : List Attribute) :
    (∃ front item back, First pool name attributes front item back) ∨ Absent pool name attributes := by
  cases found : attributes.find? (isNamed pool name) with
  | none =>
    right
    intro item member named
    exact List.find?_eq_none.mp found item member (isNamed_iff.mpr named)
  | some item =>
    left
    obtain ⟨named, front, back, split, before⟩ := List.find?_eq_some_iff_append.mp found
    refine ⟨front, item, back, split, isNamed_iff.mp named, fun other member => ?_⟩
    exact not_named_iff.mp (by simpa using before other member)

theorem First.position?_eq (first : First pool name attributes front item back) :
    position? pool name attributes = some front.length := by
  have skipped : front.findIdx? (isNamed pool name) = none :=
    List.findIdx?_eq_none_iff.mpr fun other member => not_named_iff.mpr (first.before other member)
  rw [position?, first.split, List.findIdx?_append, skipped, List.findIdx?_cons,
    isNamed_iff.mpr first.named]
  simp

theorem First.body?_eq (first : First pool name attributes front item back) :
    body? pool name attributes = some item.body := by
  have found : attributes.find? (isNamed pool name) = some item :=
    List.find?_eq_some_iff_append.mpr ⟨isNamed_iff.mpr first.named, front, back, first.split,
      fun other member => by simpa using not_named_iff.mpr (first.before other member)⟩
  rw [body?, found]
  rfl

theorem Absent.position?_eq (absent : Absent pool name attributes) :
    position? pool name attributes = none :=
  List.findIdx?_eq_none_iff.mpr fun item member => not_named_iff.mpr (absent item member)

theorem Absent.body?_eq (absent : Absent pool name attributes) : body? pool name attributes = none := by
  have none : attributes.find? (isNamed pool name) = none :=
    List.find?_eq_none.mpr fun item member named => absent item member (isNamed_iff.mp named)
  rw [body?, none]
  rfl

theorem first_of_body? {body : Bytes} (found : body? pool name attributes = some body) :
    ∃ front item back, First pool name attributes front item back ∧ item.body = body := by
  rcases first_or_absent pool name attributes with ⟨front, item, back, first⟩ | absent
  · exact ⟨front, item, back, first, Option.some.inj (first.body?_eq.symm.trans found)⟩
  · cases absent.body?_eq.symm.trans found

theorem setBody_append (body : Bytes) :
    setBody front.length body (front ++ item :: back) = front ++ { item with body := body } :: back := by
  induction front with
  | nil => rfl
  | cons other front ih => exact congrArg (List.cons other) ih

/-- With another body it is still the first one with the name. -/
theorem First.withBody (first : First pool name attributes front item back) (body : Bytes) :
    First pool name (setBody front.length body attributes) front { item with body := body } back :=
  ⟨by rw [first.split, setBody_append], first.named, first.before⟩

/-- Another body of one attribute is none of those with another name. -/
theorem First.body?_setBody {called : String} (first : First pool name attributes front item back)
    (different : called ≠ name) (body : Bytes) :
    body? pool called (setBody front.length body attributes) = body? pool called attributes := by
  have other : isNamed pool called item = false :=
    not_named_iff.mpr fun named => different (Except.ok.inj (named.symm.trans first.named))
  have other' : isNamed pool called { item with body := body } = false := other
  rw [first.split, setBody_append, body?, body?, List.find?_append, List.find?_append, List.find?_cons,
    List.find?_cons, other, other']

theorem Absent.body?_append (absent : Absent pool name attributes)
    (named : pool.utf8 item.name = .ok name) :
    body? pool name (attributes ++ [item]) = some item.body :=
  have first : First pool name (attributes ++ [item]) attributes item [] := ⟨rfl, named, absent⟩
  first.body?_eq

theorem body?_append_other {called : String} (named : pool.utf8 item.name = .ok name)
    (different : called ≠ name) : body? pool called (attributes ++ [item]) = body? pool called attributes := by
  have other : isNamed pool called item = false :=
    not_named_iff.mpr fun named' => different (Except.ok.inj (named'.symm.trans named))
  rw [body?, body?, List.find?_append, List.find?_cons, other, List.find?_nil, Option.or_none]

theorem absent_remove (pool : ConstantPool) (name : String) (attributes : List Attribute) :
    Absent pool name (remove pool name attributes) := by
  intro item member
  exact not_named_iff.mp (by simpa using (List.mem_filter.mp member).2)

theorem body?_remove_other {called : String} (different : called ≠ name) :
    body? pool called (remove pool name attributes) = body? pool called attributes := by
  rw [body?, body?, remove, List.find?_filter, List.find?_congr fun item _ => ?_]
  rw [Bool.eq_iff_iff, decide_eq_true_eq, isNamed_iff]
  constructor
  · exact And.right
  · intro named
    refine ⟨?_, named⟩
    rw [not_named_iff.mpr fun named' => different (Except.ok.inj (named.symm.trans named'))]
    rfl

theorem Absent.remove_eq (absent : Absent pool name attributes) : remove pool name attributes = attributes :=
  List.filter_eq_self.mpr fun item member => by rw [not_named_iff.mpr (absent item member)]; rfl

theorem absent_of_body? (none : body? pool name attributes = none) : Absent pool name attributes := by
  rcases first_or_absent pool name attributes with ⟨front, item, back, first⟩ | absent
  · cases first.body?_eq.symm.trans none
  · exact absent

theorem First.moved (first : First old name attributes front item back) (same : SameTexts old new) :
    First new name attributes front item back :=
  ⟨first.split, same.utf8 first.named, fun other member named =>
    first.before other member ((same.utf8_iff first.named _).mp named)⟩

end

/-! ## Attributes before and after -/

/-- The attribute has the same name, and its body is the same or one that is allowed for the name. -/
structure Turns (pool : ConstantPool) (allowed : String → Bytes → Bytes → Prop)
    (old new : Attribute) : Prop where
  name : new.name = old.name
  body : new.body = old.body ∨
    ∃ name, pool.utf8 old.name = .ok name ∧ allowed name old.body new.body

section

variable {pool later : ConstantPool} {allowed others : String → Bytes → Bytes → Prop}
  {old middle new : Attribute}

theorem Turns.refl (item : Attribute) : Turns pool allowed item item := ⟨rfl, .inl rfl⟩

theorem Turns.mono (turns : Turns pool allowed old new)
    (utf8 : ∀ {index text}, pool.utf8 index = .ok text → later.utf8 index = .ok text)
    (more : ∀ name, allowed name old.body new.body → others name old.body new.body) :
    Turns later others old new :=
  ⟨turns.name, turns.body.imp_right fun ⟨name, named, allows⟩ => ⟨name, utf8 named, more name allows⟩⟩

theorem Turns.trans (first : Turns pool allowed old middle) (second : Turns pool allowed middle new)
    (both : ∀ name, allowed name old.body middle.body → allowed name middle.body new.body →
      allowed name old.body new.body) : Turns pool allowed old new := by
  obtain ⟨name, body⟩ := first
  obtain ⟨name', body'⟩ := second
  refine ⟨name'.trans name, ?_⟩
  rcases body with same | ⟨text, named, allows⟩
  · rwa [same, name] at body'
  · rcases body' with same | ⟨text', named', allows'⟩
    · exact .inr ⟨text, named, same ▸ allows⟩
    · rw [name, named] at named'
      obtain rfl := Except.ok.inj named'
      exact .inr ⟨text, named, both text allows allows'⟩

end

end Attribute

namespace ClassFile

open Attribute

/-- The attributes at a site, none at one that does not exist. -/
def attributeList (file : ClassFile) (site : Site) : List Attribute :=
  (file.attributesAt site).getD []

/-- The body of the first attribute at the site with the name. -/
def bodyAt (file : ClassFile) (site : Site) (name : String) : Option Bytes :=
  Attribute.body? file.pool name (file.attributeList site)

theorem withAttributesAt_pool (file : ClassFile) (site : Site) (attributes : List Attribute) :
    (file.withAttributesAt site attributes).pool = file.pool := by
  cases site with
  | wholeClass => rfl
  | member kind position => cases kind <;> rfl

theorem members_withPool (file : ClassFile) (pool : ConstantPool) (kind : MemberKind) :
    members { file with pool := pool } kind = file.members kind := by
  cases kind <;> rfl

theorem attributesAt_withPool (file : ClassFile) (pool : ConstantPool) (site : Site) :
    attributesAt { file with pool := pool } site = file.attributesAt site := by
  cases site with
  | wholeClass => rfl
  | member kind position => rw [attributesAt, attributesAt, members_withPool]

theorem attributeList_withPool (file : ClassFile) (pool : ConstantPool) (site : Site) :
    attributeList { file with pool := pool } site = file.attributeList site := by
  rw [attributeList, attributesAt_withPool, attributeList]

section

variable {related : ConstantPool → ConstantPool → Prop} {old new : ClassFile}

theorem InPool.attributesAt_eq (asked : InPool related old new) (site : Site) :
    new.attributesAt site = old.attributesAt site := by
  rw [asked.rest, attributesAt_withPool]

theorem InPool.attributeList_eq (asked : InPool related old new) (site : Site) :
    new.attributeList site = old.attributeList site := by
  rw [asked.rest, attributeList_withPool]

end

theorem attributeList_member (file : ClassFile) (kind : MemberKind) (position : Nat) :
    file.attributeList (.member kind position) =
      ((file.members kind)[position]?.map Member.attributes).getD [] := rfl

theorem attributeList_withAttributesAt_self {file : ClassFile} {site : Site}
    (there : (file.attributesAt site).isSome) (attributes : List Attribute) :
    (file.withAttributesAt site attributes).attributeList site = attributes := by
  cases site with
  | wholeClass => rfl
  | member kind position =>
    rw [attributesAt, Option.isSome_map] at there
    rw [attributeList_member, withAttributesAt, members_withMembers, if_pos rfl,
      List.getElem?_modify_eq]
    obtain ⟨member, there⟩ := Option.isSome_iff_exists.mp there
    rw [there]
    rfl

theorem attributeList_withAttributesAt_other {file : ClassFile} {site other : Site}
    (different : other ≠ site) (attributes : List Attribute) :
    (file.withAttributesAt site attributes).attributeList other = file.attributeList other := by
  cases site with
  | wholeClass =>
    cases other with
    | wholeClass => exact absurd rfl different
    | member kind position => cases kind <;> rfl
  | member kind position =>
    cases other with
    | wholeClass => cases kind <;> rfl
    | member kind' place =>
      rw [attributeList_member, withAttributesAt, members_withMembers]
      split
      next same =>
        have elsewhere : position ≠ place := fun equal => different (by rw [same, equal])
        rw [List.getElem?_modify_ne _ _ elsewhere, same, attributeList_member]
      · rfl

theorem withAttributesAt_attributeList (file : ClassFile) (site : Site) :
    file.withAttributesAt site (file.attributeList site) = file := by
  cases site with
  | wholeClass => rfl
  | member kind position =>
    have same : (file.members kind).modify position (fun member =>
        { member with attributes := file.attributeList (.member kind position) }) =
          file.members kind := by
      refine List.ext_getElem? fun place => ?_
      rw [List.getElem?_modify, attributeList_member]
      by_cases here : position = place
      · subst here
        cases (file.members kind)[position]? <;> simp
      · simp [here]
    rw [withAttributesAt, same]
    cases kind <;> rfl

/-- A site that has an attribute exists. -/
theorem attributesAt_isSome {file : ClassFile} {site : Site} (some : file.attributeList site ≠ []) :
    (file.attributesAt site).isSome := by
  cases there : file.attributesAt site with
  | some attributes => rfl
  | none => simp [attributeList, there] at some

end ClassFile

end JarRemap
