import JarRemap.Proofs.Attribute.Format
import JarRemap.Proofs.ClassFile.Attributes
import JarRemap.Proofs.ConstantPool.Rename

/-!
# What becomes of bodies

Remapping gives some attributes other bodies and leaves the rest of the class alone. Where code or the
records of nested classes are encoded anew, only those parts of them differ that hold names.
-/

namespace JarRemap

open ConstantPool

namespace Attribute

def IsTable (name : String) : Prop :=
  name = localVariableTableName ∨ name = localVariableTypeTableName

/-- Only tables of local variables are different. -/
structure Code.SameButTables (pool : ConstantPool) (old new : Code) : Prop where
  maxStack : new.maxStack = old.maxStack
  maxLocals : new.maxLocals = old.maxLocals
  instructions : new.instructions = old.instructions
  handlers : new.handlers = old.handlers
  nested : List.Forall₂ (Turns pool fun name _ _ => IsTable name) old.attributes new.attributes

/-- The record is the same but for the simple name. -/
def InnerClass.SameButName (old new : InnerClass) : Prop :=
  new = { old with simpleName := new.simpleName }

/-- Both bodies are ones of code, and the same but for tables of local variables. -/
def OnlyTables (pool : ConstantPool) (old new : Bytes) : Prop :=
  ∃ parts parts', code.parse codeName old = .ok parts ∧ code.parse codeName new = .ok parts' ∧
    Code.SameButTables pool parts parts'

/-- Both bodies list as many nested classes, and these are the same but for simple names. -/
def OnlySimpleNames (old new : Bytes) : Prop :=
  ∃ records records', innerClasses.parse innerClassesName old = .ok records ∧
    innerClasses.parse innerClassesName new = .ok records' ∧
    List.Forall₂ InnerClass.SameButName records records'

/-- What holds of bodies that are encoded anew, by the name of the attribute. -/
structure BodyTurns (pool : ConstantPool) (name : String) (old new : Bytes) : Prop where
  code : name = codeName → OnlyTables pool old new
  innerClasses : name = innerClassesName → OnlySimpleNames old new

section

variable {pool grown : ConstantPool} {name : String} {old middle new : Bytes}

theorem OnlyTables.later (only : OnlyTables pool old new)
    (utf8 : ∀ {index text}, pool.utf8 index = .ok text → grown.utf8 index = .ok text) :
    OnlyTables grown old new := by
  obtain ⟨parts, parts', parsed, parsed', same⟩ := only
  refine ⟨parts, parts', parsed, parsed', { same with nested := ?_ }⟩
  exact same.nested.imp fun _ _ turns => turns.mono utf8 fun _ => id

theorem OnlyTables.trans (first : OnlyTables pool old middle) (second : OnlyTables pool middle new) :
    OnlyTables pool old new := by
  obtain ⟨parts, between, parsed, parsed', same⟩ := first
  obtain ⟨_, parts', again, parsed'', same'⟩ := second
  obtain rfl := Except.ok.inj (parsed'.symm.trans again)
  refine ⟨parts, parts', parsed, parsed'', same'.maxStack.trans same.maxStack,
    same'.maxLocals.trans same.maxLocals, same'.instructions.trans same.instructions,
    same'.handlers.trans same.handlers, ?_⟩
  exact forall₂_trans (fun _ _ _ first second => first.trans second fun _ table _ => table)
    same.nested same'.nested

theorem InnerClass.SameButName.trans {first second third : InnerClass}
    (left : first.SameButName second) (right : second.SameButName third) : first.SameButName third := by
  rw [SameButName] at left right ⊢
  rw [right, left]

theorem OnlySimpleNames.trans (first : OnlySimpleNames old middle)
    (second : OnlySimpleNames middle new) : OnlySimpleNames old new := by
  obtain ⟨records, between, parsed, parsed', same⟩ := first
  obtain ⟨_, records', again, parsed'', same'⟩ := second
  obtain rfl := Except.ok.inj (parsed'.symm.trans again)
  exact ⟨records, records', parsed, parsed'', forall₂_trans (fun _ _ _ => .trans) same same'⟩

theorem BodyTurns.later (turns : BodyTurns pool name old new)
    (utf8 : ∀ {index text}, pool.utf8 index = .ok text → grown.utf8 index = .ok text) :
    BodyTurns grown name old new :=
  ⟨fun same => (turns.code same).later utf8, turns.innerClasses⟩

theorem BodyTurns.trans (first : BodyTurns pool name old middle)
    (second : BodyTurns pool name middle new) : BodyTurns pool name old new :=
  ⟨fun same => (first.code same).trans (second.code same),
    fun same => (first.innerClasses same).trans (second.innerClasses same)⟩

end

end Attribute

namespace ClassFile

open Attribute

/-! ## Classes with other bodies -/

/-- Nothing outside the pool differs but the names and descriptors of members and the bodies of
attributes, and these only where they may. -/
structure Touches (may : Site → String → Prop) (old new : ClassFile) : Prop where
  keeps : Keeps old.pool new.pool
  texts : SameTexts old.pool new.pool
  minor : new.minor = old.minor
  major : new.major = old.major
  access : new.access = old.access
  thisClass : new.thisClass = old.thisClass
  superClass : new.superClass = old.superClass
  interfaces : new.interfaces = old.interfaces
  members : ∀ kind, (new.members kind).map Member.access = (old.members kind).map Member.access
  attributes : ∀ site, List.Forall₂
    (Turns new.pool fun name before after => may site name ∧ BodyTurns new.pool name before after)
    (old.attributeList site) (new.attributeList site)

section

variable {may others : Site → String → Prop} {old new : ClassFile}

theorem Touches.weaken (touches : Touches may old new)
    (more : ∀ site name, may site name → others site name) : Touches others old new :=
  { touches with
    attributes := fun site => (touches.attributes site).imp fun _ _ turns =>
      turns.mono id fun name => And.imp_left (more site name) }

instance (may : Site → String → Prop) : IsPreorder ClassFile (Touches may) where
  refl file := ⟨refl _, refl _, rfl, rfl, rfl, rfl, rfl, rfl, fun _ => rfl,
    fun _ => List.forall₂_same.mpr fun item _ => .refl item⟩
  trans first second third left right := by
    refine ⟨IsTrans.trans _ _ _ left.keeps right.keeps, IsTrans.trans _ _ _ left.texts right.texts,
      right.minor.trans left.minor, right.major.trans left.major, right.access.trans left.access,
      right.thisClass.trans left.thisClass, right.superClass.trans left.superClass,
      right.interfaces.trans left.interfaces, fun kind => (right.members kind).trans (left.members kind),
      fun site => ?_⟩
    -- What holds of bodies by the names in the middle holds by those at the end.
    have early : List.Forall₂ (Turns third.pool fun name before after =>
        may site name ∧ BodyTurns third.pool name before after)
        (first.attributeList site) (second.attributeList site) :=
      (left.attributes site).imp fun _ _ turns => turns.mono right.keeps.utf8 fun _ allowed =>
        ⟨allowed.1, allowed.2.later right.keeps.utf8⟩
    exact forall₂_trans (fun _ _ _ first second => first.trans second fun _ left right =>
      ⟨left.1, left.2.trans right.2⟩) early (right.attributes site)

theorem touches_inPool (may : Site → String → Prop) {file : ClassFile} {pool : ConstantPool}
    (keeps : Keeps file.pool pool) (texts : SameTexts file.pool pool) :
    Touches may file { file with pool := pool } :=
  ⟨keeps, texts, rfl, rfl, rfl, rfl, rfl, rfl, fun kind => by rw [members_withPool],
    fun site => by
      rw [attributeList_withPool]
      exact List.forall₂_same.mpr fun item _ => .refl item⟩

private theorem map_modify {β : Type} (read : Member → β) (members : List Member) (position : Nat)
    {change : Member → Member} (same : ∀ member, read (change member) = read member) :
    (members.modify position change).map read = members.map read := by
  refine List.ext_getElem? fun place => ?_
  rw [List.getElem?_map, List.getElem?_map, List.getElem?_modify]
  cases members[place]? <;> simp
  split
  · exact same _
  · rfl

/-- What all members of one kind keep is kept by the members of either kind. -/
private theorem map_members_withMembers {β : Type} {read : Member → β} {file : ClassFile}
    {kind : MemberKind} {members : List Member} (same : members.map read = (file.members kind).map read)
    (other : MemberKind) :
    ((file.withMembers kind members).members other).map read = (file.members other).map read := by
  rw [members_withMembers]
  split
  next here => rw [here, same]
  · rfl

theorem touches_withAttributesAt {file : ClassFile} {site : Site} {attributes : List Attribute}
    (there : (file.attributesAt site).isSome)
    (turned : List.Forall₂ (Turns file.pool fun name before after =>
      may site name ∧ BodyTurns file.pool name before after) (file.attributeList site) attributes) :
    Touches may file (file.withAttributesAt site attributes) := by
  have list : ∀ other, List.Forall₂ (Turns file.pool fun name before after =>
      may other name ∧ BodyTurns file.pool name before after) (file.attributeList other)
      ((file.withAttributesAt site attributes).attributeList other) := by
    intro other
    by_cases same : other = site
    · subst same
      rwa [attributeList_withAttributesAt_self there]
    · rw [attributeList_withAttributesAt_other same]
      exact List.forall₂_same.mpr fun item _ => .refl item
  have members : ∀ kind, ((file.withAttributesAt site attributes).members kind).map Member.access =
      (file.members kind).map Member.access := by
    intro kind
    cases site with
    | wholeClass => cases kind <;> rfl
    | member kind' position =>
      rw [withAttributesAt]
      refine map_members_withMembers (map_modify Member.access _ _ ?_) kind
      exact fun _ => rfl
  cases site with
  | wholeClass => exact ⟨refl _, refl _, rfl, rfl, rfl, rfl, rfl, rfl, members, list⟩
  | member kind position =>
    cases kind <;> exact ⟨refl _, refl _, rfl, rfl, rfl, rfl, rfl, rfl, members, list⟩

private theorem touches_symbol (file : ClassFile) (kind : MemberKind) (position : Nat)
    (name descriptor : Index) :
    Touches may file (file.withMembers kind ((file.members kind).modify position fun member =>
      { member with name := name, descriptor := descriptor })) := by
  generalize changed : (file.members kind).modify position (fun member =>
    { member with name := name, descriptor := descriptor }) = renamed
  have members : ∀ other, ((file.withMembers kind renamed).members other).map Member.access =
      (file.members other).map Member.access :=
    map_members_withMembers (changed ▸ map_modify Member.access _ _ fun _ => rfl)
  -- A member keeps its attributes with its position, since only its two slots are replaced.
  have attributes : ∀ other, ((file.withMembers kind renamed).members other).map Member.attributes =
      (file.members other).map Member.attributes :=
    map_members_withMembers (changed ▸ map_modify Member.attributes _ _ fun _ => rfl)
  have list : ∀ site, (file.withMembers kind renamed).attributeList site = file.attributeList site := by
    intro site
    cases site with
    | wholeClass => cases kind <;> rfl
    | member other place =>
      rw [attributeList_member, attributeList_member, ← List.getElem?_map, attributes,
        List.getElem?_map]
  have same : ∀ site, List.Forall₂ (Turns file.pool fun name before after =>
      may site name ∧ BodyTurns file.pool name before after) (file.attributeList site)
      ((file.withMembers kind renamed).attributeList site) := by
    intro site
    rw [list]
    exact List.forall₂_same.mpr fun item _ => .refl item
  cases kind <;> exact ⟨refl _, refl _, rfl, rfl, rfl, rfl, rfl, rfl, members, same⟩

/-- Another name for a member gives no attribute another body. -/
theorem moves_setMemberSymbol_touches (may : Site → String → Prop) (kind : MemberKind)
    (position : Nat) (name descriptor : String) :
    Moves (Touches may) (setMemberSymbol kind position name descriptor) := by
  have interns : ∀ text, Moves (Touches may) (inPool (utf8Index text)) := by
    intro text file
    have extends_ : Moves Extends (utf8Index text) := moves_utf8Index text
    exact touches_inPool may (extends_ file.pool).keeps (moves_utf8Index text file.pool)
  exact (interns name).bind fun _ => (interns descriptor).bind fun _ =>
    moves_modify fun file => touches_symbol file _ _ _ _

private theorem body?_turned {old new : ConstantPool} {name : String} {place : Index}
    {allowed : String → Bytes → Bytes → Prop} {left right : List Attribute}
    (texts : SameTexts old new) (there : old.utf8 place = .ok name)
    (kept : ∀ before after, ¬ allowed name before after)
    (turned : List.Forall₂ (Turns new allowed) left right) :
    Attribute.body? new name right = Attribute.body? old name left := by
  induction turned with
  | nil => rfl
  | @cons head head' rest rest' turns _ ih =>
    -- The name that was looked for is still in the same slots.
    have same : Attribute.isNamed new name head' = Attribute.isNamed old name head := by
      rw [Attribute.isNamed, turns.name]
      exact texts.hasText there head.name
    rw [Attribute.body?, Attribute.body?, List.find?_cons, List.find?_cons, same]
    cases named : Attribute.isNamed old name head with
    | false => exact ih
    | true =>
      have body : head'.body = head.body := by
        refine turns.body.resolve_right ?_
        rintro ⟨other, read, allows⟩
        obtain rfl := Except.ok.inj (read.symm.trans (texts.utf8 (isNamed_iff.mp named)))
        exact kept _ _ allows
      exact congrArg some body

/-- The first attribute with a name keeps its body if it may not have another. -/
theorem Touches.bodyAt (touches : Touches may old new) {site : Site} {name : String} {body : Bytes}
    (kept : ¬ may site name) (there : old.bodyAt site name = some body) :
    new.bodyAt site name = some body := by
  obtain ⟨front, item, back, first, -⟩ := first_of_body? there
  rw [← there, ClassFile.bodyAt, ClassFile.bodyAt]
  exact body?_turned touches.texts first.named (fun _ _ allowed => kept allowed.1)
    (touches.attributes site)

end

/-! ## Another body for one attribute -/

/-- The first attribute at the site with the name, if there is one, has the body that was made of its
old one, in a pool that texts may have been added to. -/
inductive Rewrites (site : Site) (name : String)
    (work : ConstantPool → ConstantPool → Bytes → Bytes → Prop) (before : ClassFile) :
    ClassFile → Prop
  | absent (absent : Absent before.pool name (before.attributeList site)) :
      Rewrites site name work before before
  | first {pool : ConstantPool} {front back : List Attribute} {item : Attribute} {changed : Bytes}
      (first : First before.pool name (before.attributeList site) front item back)
      (grown : Extends before.pool pool) (texts : SameTexts before.pool pool)
      (worked : work before.pool pool item.body changed) :
      Rewrites site name work before (withAttributesAt { before with pool := pool } site
        (front ++ { item with body := changed } :: back))

section

variable {site : Site} {name : String} {work : ConstantPool → ConstantPool → Bytes → Bytes → Prop}
  {before after : ClassFile}

/-- An attribute with the body that it had is none with another body. -/
theorem Rewrites.kept {pool : ConstantPool} {front back : List Attribute} {item : Attribute}
    (first : First before.pool name (before.attributeList site) front item back)
    (grown : Extends before.pool pool) (texts : SameTexts before.pool pool)
    (worked : work before.pool pool item.body item.body) :
    Rewrites site name work before { before with pool := pool } := by
  have rewrites := Rewrites.first first grown texts worked
  have same : front ++ { item with body := item.body } :: back =
      attributeList { before with pool := pool } site := by
    rw [attributeList_withPool, first.split]
  rwa [same, withAttributesAt_attributeList] at rewrites

theorem Rewrites.bodyAt (rewrites : Rewrites site name work before after) {body : Bytes}
    (there : before.bodyAt site name = some body) :
    ∃ changed, work before.pool after.pool body changed ∧ after.bodyAt site name = some changed := by
  cases rewrites with
  | absent absent => cases absent.body?_eq.symm.trans there
  | @first pool front back item changed first grown texts worked =>
    obtain rfl : item.body = body := Option.some.inj (first.body?_eq.symm.trans there)
    refine ⟨changed, by rwa [withAttributesAt_pool], ?_⟩
    have exists_ : (attributesAt { before with pool := pool } site).isSome :=
      attributesAt_isSome (by simp [attributeList_withPool, first.split])
    have list := attributeList_withAttributesAt_self exists_ (front ++ { item with body := changed } :: back)
    rw [ClassFile.bodyAt, withAttributesAt_pool, list]
    have moved := (first.moved texts).withBody changed
    rw [first.split, setBody_append] at moved
    exact moved.body?_eq

/-- Nothing but the one body is different. -/
theorem Rewrites.touches (turns : ∀ {old new body changed}, work old new body changed →
      BodyTurns new name body changed) (rewrites : Rewrites site name work before after) :
    Touches (fun place text => place = site ∧ text = name) before after := by
  cases rewrites with
  | absent absent => exact refl before
  | @first pool front back item changed first grown texts worked =>
    have list : attributeList { before with pool := pool } site = front ++ item :: back := by
      rw [attributeList_withPool, first.split]
    refine IsTrans.trans _ _ _ (touches_inPool _ grown.keeps texts)
      (touches_withAttributesAt (attributesAt_isSome (by simp [list])) ?_)
    rw [list]
    have same : ∀ items, List.Forall₂ (Turns pool fun text before after =>
        (site = site ∧ text = name) ∧ BodyTurns pool text before after) items items := fun items =>
      List.forall₂_same.mpr fun item _ => .refl item
    refine List.rel_append (same front) (.cons ⟨rfl, .inr ⟨name, texts.utf8 first.named, ?_⟩⟩ (same back))
    exact ⟨⟨rfl, rfl⟩, turns worked⟩

end

end ClassFile

end JarRemap
