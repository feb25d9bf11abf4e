import JarRemap.Proofs.Attribute.Format
import JarRemap.Proofs.Structure.Names
import JarRemap.Proofs.Structure.Put

/-!
# What a record asks for

Each part of a record asks for one attribute, and says what this has to mean: names by way of the
pool, in the order of the record, and zero for what the record leaves out.
-/

namespace JarRemap

open ClassFile ConstantPool Attribute

/-- An attribute whose body is that of a value with some meaning. -/
def Demand.ofValue {α : Type} (name : String) (format : Format α) (Means : ConstantPool → α → Prop)
    (later : ∀ {old new : ConstantPool} {value : α}, Grows old new → Means old value → Means new value) :
    Demand where
  name := name
  Says pool body := ∃ value, format.parse name body = .ok value ∧ Means pool value
  later grows := fun ⟨value, parsed, means⟩ => ⟨value, parsed, later grows means⟩

/-- The slot leads to the name, or is zero if there is none. -/
def Leads (read : Index → Except Fault String) : Option String → Index → Prop
  | some text, index => read index = .ok text
  | none, index => index = 0

theorem Leads.imp {read other : Index → Except Fault String} {name : Option String} {index : Index}
    (leads : Leads read name index) (more : ∀ text, read index = .ok text → other index = .ok text) :
    Leads other name index := by
  cases name with
  | none => exact leads
  | some name => exact more name leads

namespace InnerRecord

structure Means (record : InnerRecord) (pool : ConstantPool) (row : InnerClass) : Prop where
  inner : pool.className row.inner = .ok record.innerClass
  outer : Leads pool.className record.outerClass row.outer
  simpleName : Leads pool.utf8 record.innerName row.simpleName
  access : record.accessFlags = .ok row.access

theorem Means.later {record : InnerRecord} {old new : ConstantPool} {row : InnerClass}
    (means : record.Means old row) (grows : Grows old new) : record.Means new row where
  inner := grows.extends.className means.inner
  outer := means.outer.imp fun _ => grows.extends.className
  simpleName := means.simpleName.imp fun _ => grows.extends.utf8
  access := means.access

def demand (records : List InnerRecord) : Demand :=
  .ofValue innerClassesName innerClasses
    (fun pool => List.Forall₂ (fun record row => Means record pool row) records)
    fun grows rows => rows.imp fun _ _ row => row.later grows

end InnerRecord

namespace EnclosingRecord

/-- A method needs both its name and its descriptor. -/
def symbol? (record : EnclosingRecord) : Option (String × String) :=
  match record.name, record.descriptor with
  | some name, some descriptor => some (name, descriptor)
  | _, _ => none

structure Means (record : EnclosingRecord) (pool : ConstantPool) (place : EnclosingMethod) : Prop where
  owner : pool.className place.owner = .ok record.owner
  method : match record.symbol? with
    | some symbol => pool.nameAndType place.method = .ok symbol
    | none => place.method = 0

theorem Means.later {record : EnclosingRecord} {old new : ConstantPool} {place : EnclosingMethod}
    (means : record.Means old place) (grows : Grows old new) : record.Means new place where
  owner := grows.extends.className means.owner
  method := by
    have method := means.method
    cases symbol : record.symbol? with
    | none => simpa [symbol] using method
    | some symbol' =>
      rw [symbol] at method
      exact grows.extends.nameAndType method

def demand (record : EnclosingRecord) : Demand :=
  .ofValue enclosingMethodName enclosingMethod record.Means fun grows means => means.later grows

end EnclosingRecord

def signatureDemand (text : String) : Demand :=
  .ofValue signatureName signature (fun pool index => pool.utf8 index = .ok text)
    fun grows => grows.extends.utf8

def exceptionsDemand (names : List String) : Demand :=
  .ofValue exceptionsName exceptions
    (fun pool => List.Forall₂ (fun name index => pool.className index = .ok name) names)
    fun grows indices => indices.imp fun _ _ => grows.extends.className

/-- Parameters have no flags. -/
def parametersDemand (names : List String) : Demand :=
  .ofValue methodParametersName methodParameters
    (fun pool => List.Forall₂ (fun name (parameter : MethodParameter) =>
      pool.utf8 parameter.name = .ok name ∧ parameter.access = .empty) names)
    fun grows parameters => parameters.imp fun _ _ => And.imp_left grows.extends.utf8

namespace MethodStructure

/-- The names of the parameters, unless there are more or fewer than the method takes. -/
def fittingParameters (structure_ : MethodStructure) (descriptor : String) : Option (List String) :=
  structure_.parameters.filter fun names =>
    (Descriptor.parameterSlots descriptor).toOption.any fun slots => names.length == slots.length

def demands (structure_ : MethodStructure) (descriptor : String) : List Demand :=
  (structure_.exceptions.map exceptionsDemand).toList ++
    (structure_.signature.map signatureDemand).toList ++
      ((structure_.fittingParameters descriptor).map parametersDemand).toList

end MethodStructure

namespace ClassStructure

/-- The records of nested classes, if there are any. -/
def innerDemand (structure_ : ClassStructure) : Option Demand :=
  match structure_.innerClasses with
  | some (record :: records) => some (InnerRecord.demand (record :: records))
  | _ => none

/-- What is asked for on the class itself. -/
def ownDemands (structure_ : ClassStructure) : List Demand :=
  structure_.innerDemand.toList ++ (structure_.enclosingMethod.map EnclosingRecord.demand).toList ++
    (structure_.signature.map signatureDemand).toList

/-- What is asked for under one key, on the first method that it names. -/
def methodDemands (file : ClassFile) (entry : String × MethodStructure) : Site → List Demand :=
  match Injection.methodSymbol? entry.1 with
  | none => fun _ => []
  | some (called, descriptor) =>
    match file.findMember? .method called descriptor with
    | none => fun _ => []
    | some position => only (.member .method position) (entry.2.demands descriptor)

/-- What is asked for at a site. -/
def demands (structure_ : ClassStructure) (file : ClassFile) (site : Site) : List Demand :=
  only .wholeClass structure_.ownDemands site ++
    structure_.methods.entries.flatMap fun entry => methodDemands file entry site

end ClassStructure

namespace Injection

section

variable {base : ConstantPool} {site : Site} {before after : ClassFile} {changed : Bool}

/-! ## Names -/

theorem classIndex_gives {name : String} {index : Index} (ready : Ready base before.pool)
    (gives : Gives (Injection.inPool (classIndex name)) before index after) :
    after.pool.className index = .ok name := by
  obtain ⟨pool, interned, rfl⟩ := (gives_inPool_iff _ _ _ _).mp gives
  exact classIndex_reads ready.indexed ready.faithful interned

theorem utf8Index_gives {text : String} {index : Index} (ready : Ready base before.pool)
    (gives : Gives (Injection.inPool (utf8Index text)) before index after) :
    after.pool.utf8 index = .ok text := by
  obtain ⟨pool, interned, rfl⟩ := (gives_inPool_iff _ _ _ _).mp gives
  exact utf8Index_reads ready.indexed interned

theorem moves_classIndex (name : String) : Moves (InPool Grows) (Injection.inPool (classIndex name)) :=
  moves_inPool fun _ _ => ConstantPool.moves_classIndex name

theorem moves_utf8Index (text : String) : Moves (InPool Grows) (Injection.inPool (utf8Index text)) :=
  moves_inPool fun _ _ => ConstantPool.moves_utf8Index text

theorem innerClass_gives {record : InnerRecord} {row : InnerClass}
    (ready : Ready base before.pool) (gives : Gives (innerClass record) before row after) :
    record.Means after.pool row := by
  simp only [innerClass, gives_bind_iff, gives_lift_iff, gives_pure_iff] at gives
  obtain ⟨inner, first, named, outer, second, around, name, last, called, flags, _, ⟨read, rfl⟩, rfl,
    rfl⟩ := gives
  -- Each part is read in the pool where its slot was asked for, and the later ones keep it.
  have grows : Grows before.pool first.pool := (named.moved (moves_classIndex _)).pool
  have asked : InPool Grows first second :=
    around.moved (moves_optionalIndex (fun _ _ _ => ConstantPool.moves_classIndex _) _)
  have asked' : InPool Grows second _ :=
    called.moved (moves_optionalIndex (fun _ _ _ => ConstantPool.moves_utf8Index _) _)
  have grows' := asked.pool
  have grows'' := asked'.pool
  have both : Grows first.pool _ := grows'.trans grows''
  have ready' := ready.later grows
  have ready'' := ready'.later grows'
  refine ⟨both.extends.className (classIndex_gives ready named), ?_, ?_, read⟩
  · cases asked : record.outerClass with
    | none =>
      rw [asked] at around
      exact ((gives_pure_iff _ _ _ _).mp around).1
    | some text =>
      rw [asked] at around
      exact grows''.extends.className (classIndex_gives ready' around)
  · cases asked : record.innerName with
    | none =>
      rw [asked] at called
      exact ((gives_pure_iff _ _ _ _).mp called).1
    | some text =>
      rw [asked] at called
      exact utf8Index_gives ready'' called

/-! ## Attributes -/

/-- A value with the right meaning is put as the attribute that has to have it. -/
theorem putValue_gives {α : Type} (demand : Demand) {format : Format α} {value : α}
    (exact_ : format.Exact) (there : (before.attributesAt site).isSome) (ready : Ready base before.pool)
    (told : ∀ body, format.parse demand.name body = .ok value → demand.Says before.pool body)
    (gives : Gives (putValue site demand.name format value) before changed after) :
    Restores base (only site [demand]) before after := by
  simp only [putValue, gives_bind_iff, gives_ofEdit_iff, gives_read_iff] at gives
  obtain ⟨body, _, ⟨encoded, rfl⟩, gives⟩ := gives
  exact put_gives there ready (told body ((exact_.parse_ok_iff _ _ _).mpr encoded)) gives

end

end Injection

end JarRemap
