import JarRemap.Proofs.ClassFile.Reached
import JarRemap.Proofs.Structure.Demands
import JarRemap.Structure.ParameterNames

/-!
# What putting a record back does

Each part of a record is put at its own site under its own name, so no part takes away what another
one put. In the end everything that the record asks for is there, and everything else is as it was.
-/

namespace JarRemap.Injection

open ClassFile ConstantPool Attribute

section

variable {base : ConstantPool} {site : Site} {before middle after : ClassFile} {changed : Bool}

private theorem only_nil (site : Site) : only site [] = fun _ => [] := by
  funext other
  rw [only]
  split <;> rfl

private theorem isSome_inPool (there : (before.attributesAt site).isSome)
    (asked : InPool Grows before middle) : (middle.attributesAt site).isSome := by
  rwa [asked.attributesAt_eq]

/-! ## Parts of a record -/

private theorem putSignature_gives {text : Option String} (there : (before.attributesAt site).isSome)
    (ready : Ready base before.pool) (gives : Gives (putSignature site text) before changed after) :
    Restores base (only site (text.map signatureDemand).toList) before after := by
  cases text with
  | none =>
    obtain ⟨-, rfl⟩ := (gives_pure_iff _ _ _ _).mp gives
    exact only_nil site ▸ .nothing base after
  | some text =>
    obtain ⟨index, middle, interned, puts⟩ := (gives_bind_iff _ _ _ _ _).mp gives
    have asked := interned.moved (moves_utf8Index text)
    exact .afterPool asked (putValue_gives (signatureDemand text) signature_exact
      (isSome_inPool there asked) (ready.later asked.pool)
      (fun _ parsed => ⟨index, parsed, utf8Index_gives ready interned⟩) puts)

private theorem putExceptions_gives {names : Option (List String)}
    (there : (before.attributesAt site).isSome) (ready : Ready base before.pool)
    (gives : Gives (putExceptions site names) before changed after) :
    Restores base (only site (names.map exceptionsDemand).toList) before after := by
  cases names with
  | none =>
    obtain ⟨-, rfl⟩ := (gives_pure_iff _ _ _ _).mp gives
    exact only_nil site ▸ .nothing base after
  | some names =>
    obtain ⟨indices, middle, interned, puts⟩ := (gives_bind_iff _ _ _ _ _).mp gives
    have asked := interned.moved (moves_mapM (fun name => moves_classIndex name) names)
    have named := gives_mapM (InPool Grows)
      (fun name index file => file.pool.className index = .ok name) moves_classIndex
      (fun asked => asked.pool.extends.className)
      (fun reached step => classIndex_gives (ready.later reached.pool) step) interned
    exact .afterPool asked (putValue_gives (exceptionsDemand names) exceptions_exact
      (isSome_inPool there asked) (ready.later asked.pool) (fun _ parsed => ⟨indices, parsed, named⟩) puts)

/-- Parameters that are made for names have these names and no flags. -/
theorem parameters_gives {names : List String} {parameters : List MethodParameter}
    (ready : Ready base before.pool)
    (gives : Gives (names.mapM fun name => do
      return (⟨← Injection.inPool (utf8Index name), .empty⟩ : MethodParameter)) before parameters after) :
    InPool Grows before after ∧ List.Forall₂ (fun name (parameter : MethodParameter) =>
      after.pool.utf8 parameter.name = .ok name ∧ parameter.access = .empty) names parameters := by
  have moves : ∀ name, Moves (InPool Grows)
      (do return (⟨← Injection.inPool (utf8Index name), .empty⟩ : MethodParameter) :
        Injection MethodParameter) := fun name =>
    (moves_utf8Index name).bind fun _ => moves_pure _
  refine ⟨gives.moved (moves_mapM moves names), gives_mapM (InPool Grows)
    (fun name parameter file =>
      file.pool.utf8 parameter.name = .ok name ∧ parameter.access = .empty) moves
    (fun asked => And.imp_left asked.pool.extends.utf8) (fun reached step => ?_) gives⟩
  obtain ⟨index, _, called, done⟩ := (gives_bind_iff _ _ _ _ _).mp step
  obtain ⟨rfl, rfl⟩ := (gives_pure_iff _ _ _ _).mp done
  exact ⟨utf8Index_gives (ready.later reached.pool) called, rfl⟩

private theorem putParameters_gives {names : List String} (there : (before.attributesAt site).isSome)
    (ready : Ready base before.pool)
    (gives : Gives (putParameters site names) before changed after) :
    Restores base (only site [parametersDemand names]) before after := by
  obtain ⟨parameters, middle, interned, puts⟩ := (gives_bind_iff _ _ _ _ _).mp gives
  obtain ⟨asked, named⟩ := parameters_gives ready interned
  exact .afterPool asked (putValue_gives (parametersDemand names) methodParameters_exact
    (isSome_inPool there asked) (ready.later asked.pool) (fun _ parsed => ⟨parameters, parsed, named⟩) puts)

private theorem putMatchingParameters_gives {structure_ : MethodStructure} {descriptor : String}
    (there : (before.attributesAt site).isSome) (ready : Ready base before.pool)
    (gives : Gives (putMatchingParameters site descriptor structure_.parameters) before changed after) :
    Restores base (only site ((structure_.fittingParameters descriptor).map parametersDemand).toList)
      before after := by
  rw [MethodStructure.fittingParameters]
  cases asked : structure_.parameters with
  | none =>
    rw [asked] at gives
    obtain ⟨-, rfl⟩ := (gives_pure_iff _ _ _ _).mp gives
    exact only_nil site ▸ .nothing base after
  | some names =>
    rw [asked] at gives
    simp only [putMatchingParameters, gives_bind_iff, gives_ofEdit_iff, gives_read_iff] at gives
    obtain ⟨slots, _, ⟨read, rfl⟩, gives⟩ := gives
    -- Names that are too many for the descriptor are not demanded, and not put either.
    split at gives
    next fits =>
      simpa [read, Except.toOption, fits, Option.filter] using putParameters_gives there ready gives
    next many =>
      obtain ⟨-, rfl⟩ := (gives_pure_iff _ _ _ _).mp gives
      simpa [read, Except.toOption, many, Option.filter, only_nil] using Restores.nothing base after

/-- The slot for a symbol, or zero if there is none. -/
def symbolIndex : Option (String × String) → Injection Index
  | some symbol => Injection.inPool (nameAndTypeIndex symbol.1 symbol.2)
  | none => pure 0

theorem putEnclosing_eq (record : EnclosingRecord) :
    putEnclosing (some record) = (do
      let owner ← Injection.inPool (classIndex record.owner)
      let method ← symbolIndex record.symbol?
      putValue .wholeClass enclosingMethodName enclosingMethod ⟨owner, method⟩) := by
  rcases record with ⟨owner, _ | text, _ | descriptor⟩ <;> rfl

private theorem putEnclosing_gives {record : Option EnclosingRecord} (ready : Ready base before.pool)
    (gives : Gives (putEnclosing record) before changed after) :
    Restores base (only .wholeClass (record.map EnclosingRecord.demand).toList) before after := by
  cases record with
  | none =>
    obtain ⟨-, rfl⟩ := (gives_pure_iff _ _ _ _).mp gives
    exact only_nil _ ▸ .nothing base after
  | some record =>
    rw [putEnclosing_eq] at gives
    simp only [gives_bind_iff] at gives
    obtain ⟨owner, first, named, method, middle, described, puts⟩ := gives
    have asked := named.moved (moves_classIndex record.owner)
    have ready' := ready.later asked.pool
    -- The symbol is only asked for if both its parts are known.
    obtain ⟨asked', means⟩ : InPool Grows first middle ∧ (match record.symbol? with
        | some symbol => middle.pool.nameAndType method = .ok symbol
        | none => method = 0) := by
      cases symbol : record.symbol? with
      | none =>
        rw [symbol] at described
        obtain ⟨rfl, rfl⟩ := (gives_pure_iff _ _ _ _).mp described
        exact ⟨refl middle, rfl⟩
      | some found =>
        rw [symbol] at described
        refine ⟨described.moved (moves_inPool fun _ _ => moves_nameAndTypeIndex _ _), ?_⟩
        obtain ⟨pool, interned, rfl⟩ := (gives_inPool_iff _ _ _ _).mp described
        exact nameAndTypeIndex_reads ready'.indexed interned
    have both : InPool Grows before middle := IsTrans.trans _ _ _ asked asked'
    exact .afterPool both (putValue_gives record.demand enclosingMethod_exact rfl
      (ready.later both.pool) (fun _ parsed => ⟨⟨owner, method⟩, parsed,
        ⟨asked'.pool.extends.className (classIndex_gives ready named), means⟩⟩) puts)

private theorem putInnerClasses_gives {record : InnerRecord} {records : List InnerRecord}
    (ready : Ready base before.pool)
    (gives : Gives (putInnerClasses (some (record :: records))) before changed after) :
    Restores base (only .wholeClass [InnerRecord.demand (record :: records)]) before after := by
  obtain ⟨rows, middle, interned, puts⟩ := (gives_bind_iff _ _ _ _ _).mp gives
  have asked : InPool Grows before _ :=
    interned.moved (moves_mapM moves_innerClass (record :: records))
  have rows' := gives_mapM (InPool Grows)
    (fun record row file => InnerRecord.Means record file.pool row) moves_innerClass
    (fun asked means => means.later asked.pool)
    (fun reached step => innerClass_gives (ready.later reached.pool) step) interned
  exact .afterPool asked (putValue_gives (InnerRecord.demand (record :: records))
    innerClasses_exact rfl (ready.later asked.pool) (fun _ parsed => ⟨rows, parsed, rows'⟩) puts)

/-! ## Methods -/

private theorem isSome_later {demands : Site → List Demand}
    (restores : Restores base demands before after) (there : (before.attributesAt site).isSome) :
    (after.attributesAt site).isSome := by
  rwa [isSome_attributesAt_of_outline restores.outline]

private theorem hasText_later {old new : ConstantPool} (grows : Grows old new) {index : Index}
    (known : ∃ text, old.utf8 index = .ok text) (text : String) :
    new.hasText index text = old.hasText index text := by
  obtain ⟨found, read⟩ := known
  rw [hasText, hasText, read, grows.extends.utf8 read]

private theorem findIdx?_congr {α : Type} {holds other : α → Bool} {items : List α}
    (same : ∀ item ∈ items, holds item = other item) : items.findIdx? holds = items.findIdx? other := by
  induction items with
  | nil => rfl
  | cons item items ih =>
    rw [List.forall_mem_cons] at same
    rw [List.findIdx?_cons, List.findIdx?_cons, same.1, ih same.2]

/-- Members are found where they were before anything was put. -/
theorem findMember?_later (legible : before.Legible) (grows : Grows before.pool after.pool)
    (outline : after.outline = before.outline) (kind : MemberKind) (text descriptor : String) :
    after.findMember? kind text descriptor = before.findMember? kind text descriptor := by
  have searched : ∀ file : ClassFile, file.findMember? kind text descriptor =
      ((file.members kind).map Member.outline).findIdx? fun member =>
        file.pool.hasText member.name text && file.pool.hasText member.descriptor descriptor := by
    intro file
    rw [List.findIdx?_map]
    rfl
  rw [searched, searched, members_outline outline]
  refine findIdx?_congr fun member found => ?_
  obtain ⟨whole, here, rfl⟩ := List.mem_map.mp found
  obtain ⟨named, described⟩ := legible.members kind whole here
  exact congrArg₂ and (hasText_later grows named text) (hasText_later grows described descriptor)

theorem symbol_of_findMember? {kind : MemberKind} {text descriptor : String} {position : Nat}
    (found : before.findMember? kind text descriptor = some position) :
    ∃ member, (before.members kind)[position]? = some member ∧
      before.pool.utf8 member.name = .ok text ∧ before.pool.utf8 member.descriptor = .ok descriptor := by
  obtain ⟨within, named, -⟩ := List.findIdx?_eq_some_iff_getElem.mp found
  rw [Bool.and_eq_true, hasText_iff, hasText_iff] at named
  exact ⟨_, List.getElem?_eq_getElem within, named⟩

private theorem key_of_methodSymbol? {key : String} {symbol : String × String}
    (named : methodSymbol? key = some symbol) :
    key.toList = symbol.1.toList ++ ' ' :: symbol.2.toList := by
  rw [methodSymbol?] at named
  split at named
  next front back cut =>
    obtain rfl := Option.some.inj named
    simpa using Text.append_of_cut cut
  · cases named

/-- The site is the method that the key names. -/
def IsMethod (file : ClassFile) (key : String) (site : Site) : Prop :=
  ∃ symbol position, methodSymbol? key = some symbol ∧
    file.findMember? .method symbol.1 symbol.2 = some position ∧ site = .member .method position

/-- Two keys are never for the same method. -/
theorem IsMethod.key_eq {key other : String} (first : IsMethod before key site)
    (second : IsMethod before other site) : key = other := by
  obtain ⟨symbol, position, named, found, rfl⟩ := first
  obtain ⟨symbol', position', named', found', same⟩ := second
  obtain rfl := (Site.member.inj same).2
  obtain ⟨member, here, text, descriptor⟩ := symbol_of_findMember? found
  obtain ⟨_, there, text', descriptor'⟩ := symbol_of_findMember? found'
  obtain rfl := Option.some.inj (here.symm.trans there)
  have symbols : symbol = symbol' :=
    Prod.ext (Except.ok.inj (text.symm.trans text')) (Except.ok.inj (descriptor.symm.trans descriptor'))
  subst symbols
  exact String.toList_inj.mp ((key_of_methodSymbol? named).trans (key_of_methodSymbol? named').symm)

private theorem mem_methodDemands {entry : String × MethodStructure} {demand : Demand}
    (asked : demand ∈ ClassStructure.methodDemands before entry site) :
    IsMethod before entry.1 site := by
  rw [ClassStructure.methodDemands] at asked
  cases named : methodSymbol? entry.1 with
  | none => simp [named] at asked
  | some symbol =>
    rw [named] at asked
    cases found : before.findMember? .method symbol.1 symbol.2 with
    | none => simp [found] at asked
    | some position =>
      simp only [found, only] at asked
      split at asked
      next same => exact ⟨symbol, position, named, found, same⟩
      · cases asked

private theorem mem_toList_map {α : Type} {asks : α → Demand} {asked : Option α} {demand : Demand}
    (member : demand ∈ (asked.map asks).toList) : ∃ value, demand = asks value := by
  rw [Option.mem_toList, Option.map_eq_some_iff] at member
  obtain ⟨value, -, rfl⟩ := member
  exact ⟨value, rfl⟩

/-- Putting more at the same site under other names. -/
private theorem restores_more {first second : List Demand} (ready : Ready base before.pool)
    (early : Restores base (only site first) before middle)
    (late : Restores base (only site second) middle after)
    (different : ∀ demand ∈ first, ∀ other ∈ second, demand.name ≠ other.name) :
    Restores base (only site (first ++ second)) before after := by
  refine (early.trans ready.wide late fun place demand asked other asked' => ?_).congr
    (only_append site first second)
  rw [only] at asked asked'
  split at asked
  next same => exact different demand asked other (by rwa [if_pos same] at asked')
  · cases asked

private theorem putMethod_gives {entry : String × MethodStructure} (ready : Ready base before.pool)
    (gives : Gives (putMethod entry.1 entry.2) before changed after) :
    Restores base (ClassStructure.methodDemands before entry) before after := by
  rw [putMethod] at gives
  rw [ClassStructure.methodDemands]
  cases named : methodSymbol? entry.1 with
  | none =>
    rw [named] at gives
    obtain ⟨-, rfl⟩ := (gives_pure_iff _ _ _ _).mp gives
    exact .nothing base after
  | some symbol =>
    rw [named] at gives
    simp only [gives_bind_iff, gives_get_iff] at gives
    obtain ⟨_, before, ⟨rfl, rfl⟩, gives⟩ := gives
    cases found : before.findMember? .method symbol.1 symbol.2 with
    | none =>
      rw [found] at gives
      obtain ⟨-, rfl⟩ := (gives_pure_iff _ _ _ _).mp gives
      simpa [found] using Restores.nothing base after
    | some position =>
      rw [found] at gives
      simp only [gives_bind_iff, gives_pure_iff] at gives
      obtain ⟨_, first, exceptions, _, second, signature, _, _, parameters, -, rfl⟩ := gives
      obtain ⟨member, here, -⟩ := symbol_of_findMember? found
      have there : (before.attributesAt (.member .method position)).isSome := by
        rw [attributesAt, here]
        rfl
      simp only [found]
      -- Three attributes are put one after another, and each under a name of its own.
      have early := putExceptions_gives there ready exceptions
      have there' := isSome_later early there
      have ready' := ready.later early.pool
      have next := putSignature_gives there' ready' signature
      have late := putMatchingParameters_gives (isSome_later next there') (ready'.later next.pool) parameters
      refine restores_more ready (restores_more ready early next ?_) late ?_
      · intro demand asked other asked'
        obtain ⟨_, rfl⟩ := mem_toList_map asked
        obtain ⟨_, rfl⟩ := mem_toList_map asked'
        exact (by decide : exceptionsName ≠ signatureName)
      · intro demand asked other asked'
        obtain ⟨_, rfl⟩ := mem_toList_map asked'
        rcases List.mem_append.mp asked with asked | asked
        · obtain ⟨_, rfl⟩ := mem_toList_map asked
          exact (by decide : exceptionsName ≠ methodParametersName)
        · obtain ⟨_, rfl⟩ := mem_toList_map asked
          exact (by decide : signatureName ≠ methodParametersName)

private theorem putMethods_gives {start : ClassFile} {entries : List (String × MethodStructure)}
    (legible : start.Legible) (grows : Grows start.pool before.pool)
    (outline : before.outline = start.outline) (ready : Ready base before.pool)
    (keys : entries.Pairwise fun entry other => entry.1 ≠ other.1)
    (gives : Gives (putMethods entries) before changed after) :
    Restores base (fun site => entries.flatMap fun entry => ClassStructure.methodDemands start entry site)
      before after := by
  induction entries generalizing before changed with
  | nil =>
    obtain ⟨-, rfl⟩ := (gives_pure_iff _ _ _ _).mp gives
    exact .nothing base after
  | cons entry entries ih =>
    obtain ⟨different, keys⟩ := List.pairwise_cons.mp keys
    simp only [putMethods, gives_bind_iff, gives_pure_iff] at gives
    obtain ⟨_, middle, first, _, _, rest, -, rfl⟩ := gives
    have early := putMethod_gives ready first
    -- The method is found as it was at the start.
    have same : ClassStructure.methodDemands before entry = ClassStructure.methodDemands start entry := by
      simp only [ClassStructure.methodDemands, findMember?_later legible grows outline]
    rw [same] at early
    have late := ih (grows.trans early.pool) (early.outline.trans outline) (ready.later early.pool) keys rest
    refine (early.trans ready.wide late fun site demand asked other asked' => ?_).congr fun site => by
      rw [List.flatMap_cons]
    obtain ⟨entry', found, asked'⟩ := List.mem_flatMap.mp asked'
    exact absurd ((mem_methodDemands asked).key_eq (mem_methodDemands asked')) (different entry' found)

end

/-! ## The whole record -/

/-- The class without the attributes that the record takes away. -/
def cleared (structure_ : ClassStructure) (file : ClassFile) : ClassFile :=
  if structure_.innerClasses = some [] then
    { file with attributes := Attribute.remove file.pool innerClassesName file.attributes }
  else file

section

variable {base : ConstantPool} {before after : ClassFile} {changed : Bool} {structure_ : ClassStructure}

private theorem cleared_pool (structure_ : ClassStructure) (file : ClassFile) :
    (cleared structure_ file).pool = file.pool := by
  rw [cleared]
  split <;> rfl

private theorem cleared_outline (structure_ : ClassStructure) (file : ClassFile) :
    (cleared structure_ file).outline = file.outline := by
  rw [cleared]
  split <;> rfl

private theorem putInnerClasses_restores (ready : Ready base before.pool)
    (gives : Gives (putInnerClasses structure_.innerClasses) before changed after) :
    Restores base (only .wholeClass structure_.innerDemand.toList) (cleared structure_ before) after := by
  rw [cleared, ClassStructure.innerDemand]
  cases asked : structure_.innerClasses with
  | none =>
    rw [asked] at gives
    obtain ⟨-, rfl⟩ := (gives_pure_iff _ _ _ _).mp gives
    simpa [only_nil] using Restores.nothing base after
  | some records =>
    rw [asked] at gives
    -- A list without records takes the attribute away, and any other one puts it.
    cases records with
    | nil =>
      simp only [putInnerClasses, gives_ofEdit_iff, removeAttribute, gives_bind_iff, gives_get_iff] at gives
      obtain ⟨_, before, ⟨rfl, rfl⟩, gives⟩ := gives
      simp only [attributesAt, gives_bind_iff, gives_modify_iff, gives_pure_iff] at gives
      obtain ⟨_, _, rfl, -, rfl⟩ := gives
      simpa [only_nil, withAttributesAt] using Restores.nothing base
        (before.withAttributesAt .wholeClass (Attribute.remove before.pool innerClassesName before.attributes))
    | cons record records =>
      simpa using putInnerClasses_gives ready gives

private theorem name_of_innerDemand {demand : Demand} (asked : demand ∈ structure_.innerDemand.toList) :
    demand.name = innerClassesName := by
  rw [Option.mem_toList, ClassStructure.innerDemand] at asked
  split at asked
  · obtain rfl := Option.some.inj asked
    rfl
  · cases asked

/-- No method is asked for anything on the class itself. -/
private theorem not_mem_methodDemands {file : ClassFile} {entries : List (String × MethodStructure)}
    {demand : Demand} : demand ∉ entries.flatMap fun entry =>
      ClassStructure.methodDemands file entry .wholeClass := by
  intro asked
  obtain ⟨entry, -, asked⟩ := List.mem_flatMap.mp asked
  obtain ⟨_, _, -, -, same⟩ := mem_methodDemands asked
  cases same

private theorem putStructure_restores (whole : before.Whole)
    (gives : Gives (putStructure structure_) before changed after) :
    Restores before.pool (structure_.demands before) (cleared structure_ before) after := by
  simp only [putStructure, gives_bind_iff, gives_pure_iff] at gives
  obtain ⟨_, first, inner, _, second, enclosing, _, third, signature, _, _, methods, -, rfl⟩ := gives
  have ready : Ready before.pool before.pool := ⟨whole.sound.indexed, whole.faithful, Nat.le_refl _⟩
  have clear : Ready before.pool (cleared structure_ before).pool := by rwa [cleared_pool]
  -- The three attributes of the class have different names.
  have nested := putInnerClasses_restores ready inner
  have around := putEnclosing_gives (clear.later nested.pool) enclosing
  have both := restores_more clear nested around fun demand asked other asked' => by
    obtain ⟨_, rfl⟩ := mem_toList_map asked'
    rw [name_of_innerDemand asked]
    exact (by decide : innerClassesName ≠ enclosingMethodName)
  have generic := putSignature_gives rfl (clear.later both.pool) signature
  have own := restores_more clear both generic fun demand asked other asked' => by
    obtain ⟨_, rfl⟩ := mem_toList_map asked'
    rcases List.mem_append.mp asked with asked | asked
    · rw [name_of_innerDemand asked]
      exact (by decide : innerClassesName ≠ signatureName)
    · obtain ⟨_, rfl⟩ := mem_toList_map asked
      exact (by decide : enclosingMethodName ≠ signatureName)
  -- And no method is the class itself.
  have grows : Grows before.pool third.pool := cleared_pool structure_ before ▸ own.pool
  have keys := structure_.methods.sorted.imp fun {entry other} less =>
    (Std.ne_of_lt less : entry.1 ≠ other.1)
  have late := putMethods_gives whole.legible grows
    (own.outline.trans (cleared_outline structure_ before)) (clear.later own.pool) keys methods
  refine (own.trans clear.wide late fun site demand asked other asked' => ?_).congr fun site => rfl
  rw [only] at asked
  split at asked
  next same =>
    subst same
    exact absurd asked' not_mem_methodDemands
  · cases asked

/-- An attribute that is taken away does not come back, unless its name was missing from the pool. -/
private theorem absent_innerClasses (none : structure_.innerClasses = some [])
    (restores : Restores before.pool (structure_.demands before) (cleared structure_ before) after)
    {item : Attribute} (member : item ∈ after.attributes)
    (named : after.pool.utf8 item.name = .ok innerClassesName) :
    before.pool.entries.size ≤ item.name.toNat := by
  obtain ⟨places, fulfils⟩ := restores.fulfils .wholeClass
  obtain ⟨position, here⟩ := List.mem_iff_getElem?.mp member
  have grows : Grows before.pool after.pool := cleared_pool structure_ before ▸ restores.pool
  -- An item that was there when the attributes were taken away did not have the name then.
  by_cases old : position < ((cleared structure_ before).attributeList .wholeClass).length
  · obtain ⟨item', there, same, -⟩ := fulfils.kept position _ (List.getElem?_eq_getElem old)
    obtain rfl := Option.some.inj (here.symm.trans there)
    have found := List.getElem_mem old
    generalize ((cleared structure_ before).attributeList .wholeClass)[position] = first at found same
    rw [cleared, if_pos none] at found
    have other := (List.mem_filter.mp found).2
    rw [same] at named ⊢
    refine outside_of_new_text grows.extends (fun already => ?_) named
    simp [isNamed_iff.mpr already] at other
  · -- What is new at the class is for a demand, and none is for this name.
    have within := (List.getElem?_eq_some_iff.mp here).1
    obtain ⟨place, found⟩ := List.mem_iff_getElem?.mp
      (fulfils.fresh position (Nat.not_lt.mp old) within)
    obtain ⟨demand, asked, ⟨⟨_, there, read, -⟩, -⟩⟩ := forall₂_getElem? fulfils.placed.flip found
    obtain rfl := Option.some.inj (here.symm.trans there)
    have name := Except.ok.inj (named.symm.trans read)
    have nobody : structure_.innerDemand = Option.none := by rw [ClassStructure.innerDemand, none]
    rcases List.mem_append.mp (List.mem_of_getElem? asked) with asked | asked
    · rw [only, if_pos rfl, ClassStructure.ownDemands, nobody] at asked
      rcases List.mem_append.mp asked with asked | asked
      · obtain ⟨_, rfl⟩ := mem_toList_map (by simpa using asked)
        exact absurd name (by decide : innerClassesName ≠ enclosingMethodName)
      · obtain ⟨_, rfl⟩ := mem_toList_map asked
        exact absurd name (by decide : innerClassesName ≠ signatureName)
    · exact absurd asked not_mem_methodDemands

end

/-- Putting a record back adds to the pool and leaves everything but attributes alone. What the record
asks for at each site has its place there, where it says what the record says, and all attributes at
other places are as they were, but for the records of nested classes if these are taken away. -/
theorem inject_restores (bytes : Bytes) (before after : ClassFile) (structure_ : ClassStructure)
    (changed : Bool) (read : decode bytes = .ok before)
    (injected : Gives (inject (some structure_) false) before changed after) :
    Extends before.pool after.pool ∧ after.outline = before.outline ∧
      (∀ site, ∃ places, Fulfils before.pool after.pool (structure_.demands before site) places
        ((cleared structure_ before).attributeList site) (after.attributeList site)) ∧
      (structure_.innerClasses = some [] → ∀ item ∈ after.attributes,
        after.pool.utf8 item.name = .ok innerClassesName →
        before.pool.entries.size ≤ item.name.toNat) := by
  obtain ⟨_, middle, puts, rest⟩ := (gives_bind_iff _ _ _ _ _).mp injected
  obtain ⟨-, rfl⟩ : changed = _ ∧ after = middle := (gives_pure_iff _ _ _ _).mp rest
  have restores := putStructure_restores (whole_decoded read) puts
  have grows : Grows before.pool _ := cleared_pool structure_ before ▸ restores.pool
  exact ⟨grows.extends, restores.outline.trans (cleared_outline structure_ before), restores.fulfils,
    fun none item member named => absent_innerClasses none restores member named⟩

/-- A class `A` with a method `m` that takes a number. -/
def stripped : ClassFile :=
  ⟨0, 52, .ofEntries [.unusable, .utf8 "A", .classRef 1, .utf8 "m", .utf8 "(I)V"], ⟨0⟩, 2, 0, [], [],
    [⟨⟨0⟩, 3, 4, []⟩], []⟩

def strippedBytes : Bytes :=
  [0xCA, 0xFE, 0xBA, 0xBE, 0, 0, 0, 52, 0, 5, 1, 0, 1, 0x41, 7, 0, 1, 1, 0, 1, 0x6D, 1, 0, 4, 0x28,
    0x49, 0x29, 0x56, 0, 0, 0, 2, 0, 0, 0, 0, 0, 0, 0, 1, 0, 0, 0, 3, 0, 4, 0, 0, 0, 0]

/-- The class is nested in another one, and its method has a parameter called `size`. -/
def strippedRecord : ClassStructure :=
  ⟨none, some [⟨"A", some "O", some "A", some "8", none⟩], none,
    .ofList [("m (I)V", ⟨some ["E"], some ["size"], none⟩)]⟩

theorem inject_restores_stripped :
    decode strippedBytes = .ok stripped ∧ ∃ after,
      Gives (inject (some strippedRecord) false) stripped true after ∧
      Extends stripped.pool after.pool ∧
      (∃ places, Fulfils stripped.pool after.pool
        [InnerRecord.demand [⟨"A", some "O", some "A", some "8", none⟩]] places []
        (after.attributeList .wholeClass)) ∧
      (∃ places, Fulfils stripped.pool after.pool [exceptionsDemand ["E"], parametersDemand ["size"]]
        places [] (after.attributeList (.member .method 0))) ∧
      (after.bodyAt .wholeClass "InnerClasses").isSome ∧
      (after.bodyAt (.member .method 0) "Exceptions").isSome ∧
      (after.bodyAt (.member .method 0) "MethodParameters").isSome := by
  have read : decode strippedBytes = .ok stripped := by decide +kernel
  have injected : Gives (inject (some strippedRecord) false) stripped true
      (ran (inject (some strippedRecord) false) stripped).2 := Prod.ext (by decide +kernel) rfl
  obtain ⟨grown, -, sites, -⟩ :=
    inject_restores strippedBytes stripped _ strippedRecord true read injected
  refine ⟨read, _, injected, grown, sites .wholeClass, sites (.member .method 0), ?_, ?_, ?_⟩
  · decide +kernel
  · decide +kernel
  · decide +kernel

/-- A class `A` with an attribute whose name is in the slot behind the last one. -/
def nameless : ClassFile :=
  ⟨0, 52, .ofEntries [.unusable, .utf8 "A", .classRef 1, .utf8 "LA;"], ⟨0⟩, 2, 0, [], [], [],
    [⟨4, [0, 1]⟩]⟩

def namelessBytes : Bytes :=
  [0xCA, 0xFE, 0xBA, 0xBE, 0, 0, 0, 52, 0, 4, 1, 0, 1, 0x41, 7, 0, 1, 1, 0, 3, 0x4C, 0x41, 0x3B, 0, 0,
    0, 2, 0, 0, 0, 0, 0, 0, 0, 0, 0, 1, 0, 4, 0, 0, 0, 2, 0, 1]

/-- The name of the signature that is put there fills this slot, so the attribute becomes the first
signature, and refers to another text. -/
theorem inject_names_attribute :
    decode namelessBytes = .ok nameless ∧ ∃ after,
      Gives (inject (some ⟨none, none, some "LA;", .empty⟩) false) nameless true after ∧
      after.bodyAt .wholeClass signatureName = some [0, 1] ∧
      signature.parse signatureName [0, 1] = .ok 1 ∧ after.pool.utf8 1 = .ok "A" := by
  refine ⟨by decide +kernel, (ran (inject (some ⟨none, none, some "LA;", .empty⟩) false) nameless).2,
    Prod.ext (by decide +kernel) rfl, ?_, ?_, ?_⟩
  · decide +kernel
  · decide +kernel
  · decide +kernel

end JarRemap.Injection
