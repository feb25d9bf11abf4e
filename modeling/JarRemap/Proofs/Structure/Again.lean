import JarRemap.Proofs.Structure.Inject
import JarRemap.Proofs.Structure.Settles

/-!
# Putting a record back twice

Every part of a record asks for its names and puts one attribute. Asked again, the pool gives the same
slots, so the same bodies are put. Parameter names are generated only for methods without any, so
there are none left to generate.
-/

namespace JarRemap.Injection

open ClassFile ConstantPool Attribute

/-! ## Asking -/

/-- With this pool, or one that it grows into, the edit gets the value and changes nothing. -/
def Known {α : Type} (pool : ConstantPool) (edit : Injection α) (value : α) : Prop :=
  ∀ last : ClassFile, Grows pool last.pool → Gives edit last value last

/-- The edit only asks the pool for things, and gets the same when it asks again. -/
structure Repeatable {α : Type} (edit : Injection α) : Prop where
  moves : Moves (InPool Grows) edit
  known : ∀ {before : ClassFile} {value : α} {after : ClassFile}, Gives edit before value after →
    Known after.pool edit value

section

variable {α β : Type}

private theorem repeatable_pure (value : α) : Repeatable (pure value : Injection α) where
  moves := moves_pure value
  known gives := fun last _ => by
    obtain ⟨rfl, -⟩ := (gives_pure_iff _ _ _ _).mp gives
    exact (gives_pure_iff _ _ _ _).mpr ⟨rfl, rfl⟩

private theorem repeatable_lift (outcome : Except Failure α) :
    Repeatable (liftM outcome : Injection α) where
  moves := moves_lift outcome
  known gives := fun _ _ =>
    (gives_lift_iff _ _ _ _).mpr ⟨((gives_lift_iff _ _ _ _).mp gives).1, rfl⟩

private theorem Repeatable.bind {edit : Injection α} {next : α → Injection β}
    (first : Repeatable edit) (second : ∀ value, Repeatable (next value)) :
    Repeatable (edit >>= next) where
  moves := first.moves.bind fun value => (second value).moves
  known gives := fun last grows => by
    obtain ⟨value, middle, given, rest⟩ := (gives_bind_iff _ _ _ _ _).mp gives
    have grows' : Grows middle.pool last.pool := (rest.moved (second value).moves).pool.trans grows
    exact (gives_bind_iff _ _ _ _ _).mpr
      ⟨value, last, first.known given last grows', (second value).known rest last grows⟩

private theorem repeatable_mapM {γ : Type} {step : γ → Injection β}
    (each : ∀ item, Repeatable (step item)) (items : List γ) : Repeatable (items.mapM step) := by
  induction items with
  | nil => exact repeatable_pure []
  | cons item items ih =>
    rw [List.mapM_cons]
    exact (each item).bind fun _ => ih.bind fun _ => repeatable_pure _

private theorem repeatable_inPool {edit : PoolEdit α} (appends : Appends edit)
    (known : ∀ {before : ConstantPool} {value : α} {after : ConstantPool},
      Gives edit before value after → after.Known edit value) :
    Repeatable (Injection.inPool edit) where
  moves := moves_inPool appends
  known gives := fun last grows => by
    obtain ⟨pool, given, rfl⟩ := (gives_inPool_iff _ _ _ _).mp gives
    exact (gives_inPool_iff _ _ _ _).mpr ⟨last.pool, known given _ grows, rfl⟩

private theorem repeatable_utf8Index (text : String) :
    Repeatable (Injection.inPool (utf8Index text)) :=
  repeatable_inPool (fun _ _ => ConstantPool.moves_utf8Index text) known_utf8Index

private theorem repeatable_classIndex (name : String) :
    Repeatable (Injection.inPool (classIndex name)) :=
  repeatable_inPool (fun _ _ => ConstantPool.moves_classIndex name) known_classIndex

private theorem repeatable_symbolIndex (symbol : Option (String × String)) :
    Repeatable (symbolIndex symbol) := by
  cases symbol with
  | none => exact repeatable_pure 0
  | some symbol =>
    exact repeatable_inPool (fun _ _ => moves_nameAndTypeIndex symbol.1 symbol.2) known_nameAndTypeIndex

private theorem repeatable_optionalIndex {index : String → PoolEdit Index}
    (each : ∀ name, Repeatable (Injection.inPool (index name))) (name : Option String) :
    Repeatable (optionalIndex index name) := by
  cases name with
  | none => exact repeatable_pure 0
  | some name => exact each name

private theorem repeatable_innerClass (record : InnerRecord) : Repeatable (innerClass record) :=
  (repeatable_classIndex _).bind fun _ =>
    (repeatable_optionalIndex repeatable_classIndex _).bind fun _ =>
      (repeatable_optionalIndex repeatable_utf8Index _).bind fun _ =>
        (repeatable_lift _).bind fun _ => repeatable_pure _

end

/-! ## Parts of a record -/

section

variable {site : Site} {before after : ClassFile} {changed : Bool}

private theorem ran_putValue {α : Type} {format : Format α} {value : α} {body : Bytes} {name : String}
    (encoded : format.encode value = .ok body) (file : ClassFile) :
    ran (putValue site name format value) file = ran (put site name body) file :=
  ran_bind_of_gives ((gives_ofEdit_iff _ _ _ _).mpr ((gives_read_iff _ _ _ _).mpr ⟨encoded, rfl⟩))

/-- A part of a record has the same body when it asks again. -/
private theorem settles_putValue {α : Type} {asks : Injection α} {name : String} {format : Format α}
    (repeatable : Repeatable asks) (there : (before.attributesAt site).isSome)
    (legible : before.Legible) (gives : Gives (asks >>= putValue site name format) before changed after) :
    Settles (asks >>= putValue site name format) (Only site name) before after ∧
      (after.bodyAt site name).isSome := by
  obtain ⟨value, middle, asked, puts⟩ := (gives_bind_iff _ _ _ _ _).mp gives
  have inPool := asked.moved repeatable.moves
  have advances := Advances.ofPool inPool
  obtain ⟨body, _, reads, -⟩ := (gives_bind_iff _ _ _ _ _).mp puts
  obtain ⟨encoded, -⟩ := (gives_read_iff _ _ _ _).mp ((gives_ofEdit_iff _ _ _ _).mp reads)
  have put : Gives (put site name body) middle changed after := by
    rw [Gives, ← ran_putValue encoded]
    exact puts
  have there' := advances.isSome_attributesAt there
  have legible' := advances.legible legible
  have settles := settles_put there' legible' put
  -- From then on, asking gives the same value, and this has the same body.
  refine ⟨(settles.congr fun last later => ?_).afterPool inPool,
    (puts_of_put there' legible'.indexed put).there⟩
  have grows := settles.advances.pool.trans later.pool
  rw [ran_bind_of_gives (repeatable.known asked last grows), ran_putValue encoded]

private theorem settles_pure (places : Site → String → Prop)
    (gives : Gives (pure false : Injection Bool) before changed after) :
    Settles (pure false) places before after := by
  obtain ⟨-, rfl⟩ := (gives_pure_iff _ _ _ _).mp gives
  exact .idle fun last _ => (gives_pure_iff _ _ _ _).mpr ⟨rfl, rfl⟩

private theorem settles_putSignature {text : Option String} (there : (before.attributesAt site).isSome)
    (legible : before.Legible) (gives : Gives (putSignature site text) before changed after) :
    Settles (putSignature site text) (Only site signatureName) before after := by
  cases text with
  | none => exact settles_pure _ gives
  | some text => exact (settles_putValue (repeatable_utf8Index text) there legible gives).1

private theorem settles_putExceptions {names : Option (List String)}
    (there : (before.attributesAt site).isSome) (legible : before.Legible)
    (gives : Gives (putExceptions site names) before changed after) :
    Settles (putExceptions site names) (Only site exceptionsName) before after := by
  cases names with
  | none => exact settles_pure _ gives
  | some names =>
    exact (settles_putValue (repeatable_mapM repeatable_classIndex names) there legible gives).1

private theorem settles_putParameters {names : List String}
    (there : (before.attributesAt site).isSome) (legible : before.Legible)
    (gives : Gives (putParameters site names) before changed after) :
    Settles (putParameters site names) (Only site methodParametersName) before after ∧
      (after.bodyAt site methodParametersName).isSome :=
  settles_putValue (repeatable_mapM (fun name =>
    (repeatable_utf8Index name).bind fun _ => repeatable_pure _) names) there legible gives

private theorem ran_putMatchingParameters (site : Site) (descriptor : String) (names : List String)
    {slots : List Nat} (read : Descriptor.parameterSlots descriptor = .ok slots) (file : ClassFile) :
    ran (putMatchingParameters site descriptor (some names)) file =
      ran (if names.length = slots.length then putParameters site names else pure false) file :=
  ran_bind_of_gives ((gives_ofEdit_iff _ _ _ _).mpr ((gives_read_iff _ _ _ _).mpr ⟨read, rfl⟩))

private theorem settles_putMatchingParameters {descriptor : String} {names : Option (List String)}
    (there : (before.attributesAt site).isSome) (legible : before.Legible)
    (gives : Gives (putMatchingParameters site descriptor names) before changed after) :
    Settles (putMatchingParameters site descriptor names) (Only site methodParametersName) before
      after := by
  cases names with
  | none => exact settles_pure _ gives
  | some names =>
    obtain ⟨slots, _, reads, -⟩ := (gives_bind_iff _ _ _ _ _).mp gives
    obtain ⟨read, -⟩ := (gives_read_iff _ _ _ _).mp ((gives_ofEdit_iff _ _ _ _).mp reads)
    rw [Gives, ran_putMatchingParameters site descriptor names read] at gives
    refine Settles.congr ?_ fun last _ => ran_putMatchingParameters site descriptor names read last
    by_cases fits : names.length = slots.length
    · rw [if_pos fits] at gives ⊢
      exact (settles_putParameters there legible gives).1
    · rw [if_neg fits] at gives ⊢
      exact settles_pure _ gives

private theorem settles_putEnclosing {record : Option EnclosingRecord} (legible : before.Legible)
    (gives : Gives (putEnclosing record) before changed after) :
    Settles (putEnclosing record) (Only .wholeClass enclosingMethodName) before after := by
  cases record with
  | none => exact settles_pure _ gives
  | some record =>
    -- What is put is made of the two slots that are asked for.
    have shape : putEnclosing (some record) = (do
        let owner ← Injection.inPool (classIndex record.owner)
        let method ← symbolIndex record.symbol?
        return (⟨owner, method⟩ : EnclosingMethod)) >>=
          putValue .wholeClass enclosingMethodName enclosingMethod := by
      simp only [putEnclosing_eq, bind_assoc, pure_bind]
    rw [shape] at gives ⊢
    exact (settles_putValue ((repeatable_classIndex _).bind fun _ =>
      (repeatable_symbolIndex _).bind fun _ => repeatable_pure _) rfl legible gives).1

private theorem settles_putInnerClasses {records : Option (List InnerRecord)} (legible : before.Legible)
    (gives : Gives (putInnerClasses records) before changed after) :
    Settles (putInnerClasses records) (Only .wholeClass innerClassesName) before after := by
  match records, gives with
  | none, gives => exact settles_pure _ gives
  | some [], gives => exact settles_remove gives
  | some (record :: records), gives =>
    exact (settles_putValue (repeatable_mapM repeatable_innerClass (record :: records)) rfl legible
      gives).1

end

/-! ## Methods -/

section

variable {site : Site} {before after : ClassFile} {changed : Bool}

theorem IsMethod.of_advances {key : String} (legible : before.Legible)
    (advances : Advances before after) (names : IsMethod after key site) : IsMethod before key site := by
  obtain ⟨symbol, position, named, found, same⟩ := names
  rw [findMember?_later legible advances.pool advances.outline] at found
  exact ⟨symbol, position, named, found, same⟩

/-- What the record of a method says, put there part by part. -/
def putParts (site : Site) (descriptor : String) (structure_ : MethodStructure) : Injection Bool := do
  let others ← (do
    let exceptions ← putExceptions site structure_.exceptions
    let signature ← putSignature site structure_.signature
    return exceptions || signature)
  let parameters ← putMatchingParameters site descriptor structure_.parameters
  return others || parameters

private theorem ran_putMethod {key : String} {symbol : String × String}
    (named : methodSymbol? key = some symbol) (structure_ : MethodStructure) (file : ClassFile) :
    ran (putMethod key structure_) file =
      match file.findMember? .method symbol.1 symbol.2 with
      | none => ran (pure false : Injection Bool) file
      | some position => ran (putParts (.member .method position) symbol.2 structure_) file := by
  rw [putMethod, named]
  dsimp only
  rw [ran_bind, ran_get]
  dsimp only
  cases file.findMember? .method symbol.1 symbol.2 with
  | none => rfl
  | some position => simp only [putParts, bind_assoc, pure_bind]

private theorem settles_putParts {descriptor : String} {structure_ : MethodStructure}
    (there : (before.attributesAt site).isSome) (legible : before.Legible)
    (gives : Gives (putParts site descriptor structure_) before changed after) :
    Settles (putParts site descriptor structure_) (fun other _ => other = site) before after := by
  have names : exceptionsName ≠ signatureName ∧ exceptionsName ≠ methodParametersName ∧
      signatureName ≠ methodParametersName := by decide
  have early : ∀ {changed middle}, Gives (do
      let exceptions ← putExceptions site structure_.exceptions
      let signature ← putSignature site structure_.signature
      return exceptions || signature) before changed middle → Settles _ _ before middle := fun given =>
    settles_seq given (settles_putExceptions there legible)
      (fun advances => settles_putSignature (advances.isSome_attributesAt there)
        (advances.legible legible)) fun _ _ first => first.apart names.1
  refine (settles_seq gives early (fun advances => settles_putMatchingParameters
    (advances.isSome_attributesAt there) (advances.legible legible)) ?_).mono ?_
  · exact fun _ _ either => either.elim (·.apart names.2.1) (·.apart names.2.2)
  · rintro _ _ ((own | own) | own) <;> exact own.1

private theorem settles_putMethod {key : String} {structure_ : MethodStructure} (legible : before.Legible)
    (gives : Gives (putMethod key structure_) before changed after) :
    Settles (putMethod key structure_) (fun site _ => IsMethod before key site) before after := by
  cases named : methodSymbol? key with
  | none =>
    have nothing : putMethod key structure_ = pure false := by rw [putMethod, named]
    rw [nothing] at gives ⊢
    exact settles_pure _ gives
  | some symbol =>
    -- The key names the same method from then on.
    have runs : ∀ last, Advances before last → ran (putMethod key structure_) last =
        match before.findMember? .method symbol.1 symbol.2 with
        | none => ran (pure false : Injection Bool) last
        | some position => ran (putParts (.member .method position) symbol.2 structure_) last :=
      fun last advances => by
        rw [ran_putMethod named, findMember?_later legible advances.pool advances.outline]
    rw [Gives, runs before (.refl before)] at gives
    cases found : before.findMember? .method symbol.1 symbol.2 with
    | none =>
      simp only [found] at gives runs
      have settles := settles_pure (fun site _ => IsMethod before key site) gives
      exact settles.congr fun last advances => runs last (settles.advances.trans advances)
    | some position =>
      simp only [found] at gives runs
      obtain ⟨member, here, -⟩ := symbol_of_findMember? found
      have settles := settles_putParts (by rw [attributesAt, here]; rfl) legible gives
      refine (settles.congr fun last advances => runs last (settles.advances.trans advances)).mono ?_
      exact fun site _ same => ⟨symbol, position, named, found, same⟩

private theorem settles_putMethods {start : ClassFile} {entries : List (String × MethodStructure)}
    (legible : start.Legible) (keys : entries.Pairwise fun entry other => entry.1 ≠ other.1)
    (advances : Advances start before) (gives : Gives (putMethods entries) before changed after) :
    Settles (putMethods entries) (fun site _ => ∃ entry ∈ entries, IsMethod start entry.1 site) before
      after := by
  -- Each key names the same method all along, so it is looked up in the class before the first one.
  induction entries generalizing before changed with
  | nil => exact settles_pure _ gives
  | cons entry entries ih =>
    obtain ⟨different, keys⟩ := List.pairwise_cons.mp keys
    have first : ∀ {changed middle}, Gives (putMethod entry.1 entry.2) before changed middle →
        Settles (putMethod entry.1 entry.2) (fun site _ => IsMethod start entry.1 site) before middle :=
      fun given => (settles_putMethod (advances.legible legible) given).mono fun site _ names =>
        names.of_advances legible advances
    refine (settles_seq gives first (fun advances' given => ih keys (advances.trans advances') given)
      ?_).mono ?_
    · rintro site _ names ⟨other, found, names'⟩
      exact different other found (names.key_eq names')
    · rintro site _ (names | ⟨other, found, names⟩)
      · exact ⟨entry, List.mem_cons_self, names⟩
      · exact ⟨other, List.mem_cons_of_mem _ found, names⟩

private theorem putStructure_eq (structure_ : ClassStructure) : putStructure structure_ = (do
    let own ← (do
      let nesting ← (do
        let inner ← putInnerClasses structure_.innerClasses
        let enclosing ← putEnclosing structure_.enclosingMethod
        return inner || enclosing)
      let signature ← putSignature .wholeClass structure_.signature
      return nesting || signature)
    let methods ← putMethods structure_.methods.entries
    return own || methods) := by
  simp only [putStructure, bind_assoc, pure_bind]

private theorem settles_putStructure {structure_ : ClassStructure} (legible : before.Legible)
    (gives : Gives (putStructure structure_) before changed after) :
    ∃ places, Settles (putStructure structure_) places before after := by
  have names : innerClassesName ≠ enclosingMethodName ∧ innerClassesName ≠ signatureName ∧
      enclosingMethodName ≠ signatureName := by decide
  have keys := structure_.methods.sorted.imp fun {entry other} less =>
    (Std.ne_of_lt less : entry.1 ≠ other.1)
  rw [putStructure_eq] at gives ⊢
  -- The attributes of the class itself have different names, and no method is the class.
  have nesting : ∀ {changed middle}, Gives (do
      let inner ← putInnerClasses structure_.innerClasses
      let enclosing ← putEnclosing structure_.enclosingMethod
      return inner || enclosing) before changed middle → Settles _ _ before middle := fun given =>
    settles_seq given (settles_putInnerClasses legible)
      (fun advances => settles_putEnclosing (advances.legible legible)) fun _ _ first => first.apart names.1
  refine ⟨_, settles_seq gives
    (fun given => settles_seq given nesting
      (fun advances => settles_putSignature rfl (advances.legible legible))
      fun _ _ either => either.elim (·.apart names.2.1) (·.apart names.2.2))
    (settles_putMethods legible keys) ?_⟩
  rintro site name own ⟨entry, -, symbol, position, -, -, rfl⟩
  rcases own with (own | own) | own <;> cases own.1

end

/-! ## Generated names -/

section

variable {before last after : ClassFile} {position : Nat} {changed : Bool}

/-- No names are to be generated for the method at the position. -/
def Quiet (file : ClassFile) (position : Nat) : Prop :=
  ∀ method, file.methods[position]? = some method → ParameterNames.wanted file method = .ok none

/-- The name is not generated, the parameters have names, or there are none. -/
private theorem wanted_none_iff {file : ClassFile} {method : Member} {name descriptor : String}
    (named : file.pool.utf8 method.name = .ok name)
    (described : file.pool.utf8 method.descriptor = .ok descriptor) :
    ParameterNames.wanted file method = .ok none ↔
      ParameterNames.methodNumber? name.toList = none ∨
        (Attribute.body? file.pool methodParametersName method.attributes).isSome ∨
        Descriptor.parameterSlots descriptor = .ok [] := by
  simp only [ParameterNames.wanted, bind_ok_iff, Failure.ofFault_ok_iff, named, described,
    Except.ok.injEq, exists_eq_left']
  cases ParameterNames.methodNumber? name.toList with
  | none => simp [pure_ok_iff]
  | some number =>
    cases (Attribute.body? file.pool methodParametersName method.attributes).isSome with
    | true => simp [pure_ok_iff]
    | false =>
      simp only [Bool.false_eq_true, if_false, bind_ok_iff, Failure.ofFault_ok_iff, Except.ok.injEq,
        exists_eq_left']
      cases Descriptor.parameterSlots descriptor with
      | error fault => simp
      | ok widths =>
        cases widths with
        | nil => simp [pure_ok_iff]
        | cons width widths =>
          -- Whether or not the slots can be counted, names are wanted.
          cases made : ParameterNames.names number (ParameterNames.firstSlot method.access)
            (width :: widths) <;> simp [made]

private theorem bodyAt_method {file : ClassFile} {method : Member}
    (here : file.methods[position]? = some method) (name : String) :
    file.bodyAt (.member .method position) name = Attribute.body? file.pool name method.attributes := by
  rw [bodyAt, attributeList, attributesAt, members, here]
  rfl

/-- A method whose parameters have names gets no others. -/
private theorem quiet_of_named (legible : last.Legible)
    (named : (last.bodyAt (.member .method position) methodParametersName).isSome) :
    Quiet last position := by
  intro method here
  obtain ⟨⟨_, read⟩, _, read'⟩ := legible.members .method method (List.mem_of_getElem? here)
  rw [bodyAt_method here] at named
  exact (wanted_none_iff read read').mpr (.inr (.inl named))

private theorem quiet_later (legible : before.Legible) (advances : Advances before last)
    (quiet : Quiet before position) : Quiet last position := by
  intro method here
  -- The method is as before, apart from its attributes.
  have bare := congrArg (fun members => members[position]?) (members_outline advances.outline .method)
  simp only [List.getElem?_map, members, here, Option.map_some] at bare
  obtain ⟨earlier, there, same⟩ := Option.map_eq_some_iff.mp bare.symm
  obtain ⟨name, descriptor⟩ := slots_of_outline same
  obtain ⟨⟨_, read⟩, _, read'⟩ := legible.members .method earlier (List.mem_of_getElem? there)
  refine (wanted_none_iff (name ▸ advances.pool.extends.utf8 read)
    (descriptor ▸ advances.pool.extends.utf8 read')).mpr ?_
  refine ((wanted_none_iff read read').mp (quiet earlier there)).imp_right (Or.imp_left fun named => ?_)
  rw [← bodyAt_method there] at named
  rw [← bodyAt_method here]
  exact advances.isSome_bodyAt (by simp) named

/-- A method gets the names that are wanted for it. -/
theorem gives_generateAt_iff {method : Member} (here : before.methods[position]? = some method) :
    Gives (ParameterNames.generateAt position) before changed after ↔
      (ParameterNames.wanted before method = .ok none ∧ changed = false ∧ after = before) ∨
      ∃ names, ParameterNames.wanted before method = .ok (some names) ∧
        Gives (putParameters (.member .method position) names) before changed after := by
  simp only [ParameterNames.generateAt, gives_bind_iff, gives_get_iff]
  -- What is wanted is read off the class, so both directions go through the same reading.
  constructor
  · rintro ⟨_, before, ⟨rfl, rfl⟩, gives⟩
    rw [here] at gives
    simp only [gives_bind_iff, gives_lift_iff] at gives
    obtain ⟨found, _, ⟨wants, rfl⟩, gives⟩ := gives
    cases found with
    | none => exact .inl ⟨wants, (gives_pure_iff _ _ _ _).mp gives⟩
    | some names => exact .inr ⟨names, wants, gives⟩
  · intro either
    refine ⟨before, before, ⟨rfl, rfl⟩, ?_⟩
    rw [here]
    simp only [gives_bind_iff, gives_lift_iff]
    rcases either with ⟨wants, rfl, rfl⟩ | ⟨names, wants, puts⟩
    · exact ⟨none, after, ⟨wants, rfl⟩, (gives_pure_iff _ _ _ _).mpr ⟨rfl, rfl⟩⟩
    · exact ⟨some names, before, ⟨wants, rfl⟩, puts⟩

theorem gives_generateAt (quiet : Quiet last position) :
    Gives (ParameterNames.generateAt position) last false last := by
  cases here : last.methods[position]? with
  | none =>
    refine (gives_bind_iff _ _ _ _ _).mpr ⟨last, last, rfl, ?_⟩
    rw [here]
    exact (gives_pure_iff _ _ _ _).mpr ⟨rfl, rfl⟩
  | some method => exact (gives_generateAt_iff here).mpr (.inl ⟨quiet method here, rfl, rfl⟩)

/-- A method that needs names gets them. -/
private theorem putParameters_of_generateAt (loud : ¬ Quiet before position)
    (gives : Gives (ParameterNames.generateAt position) before changed after) :
    (before.attributesAt (.member .method position)).isSome ∧
      ∃ names, Gives (putParameters (.member .method position) names) before changed after := by
  simp only [Quiet, not_forall] at loud
  obtain ⟨method, here, loud⟩ := loud
  rcases (gives_generateAt_iff here).mp gives with ⟨wants, -⟩ | ⟨names, -, puts⟩
  · exact absurd wants loud
  · exact ⟨by rw [attributesAt, members, here]; rfl, names, puts⟩

/-- Generating names takes the place of nothing. -/
private theorem settles_generateAt (legible : before.Legible)
    (gives : Gives (ParameterNames.generateAt position) before changed after) :
    Settles (ParameterNames.generateAt position) (fun _ _ => False) before after := by
  by_cases quiet : Quiet before position
  · -- Nothing was done, and nothing will be.
    obtain ⟨-, rfl⟩ := gives.unique (gives_generateAt quiet)
    exact .idle fun last advances => gives_generateAt (quiet_later legible advances quiet)
  · -- The method had no parameter names, so the new ones stand where nothing stood before.
    obtain ⟨there, names, puts⟩ := putParameters_of_generateAt quiet gives
    obtain ⟨settles, named⟩ := settles_putParameters there legible puts
    have idle : ∀ last, Advances after last →
        Gives (ParameterNames.generateAt position) last false last := fun last advances =>
      gives_generateAt (quiet_of_named ((settles.advances.trans advances).legible legible)
        (advances.isSome_bodyAt (by simp) named))
    refine ⟨settles.advances, fun last advances => ⟨false, last, idle last advances, rfl, .refl last⟩,
      fun already site name _ standing => settles.others already site name ?_ standing,
      fun _ last advances _ => idle last advances⟩
    rintro ⟨rfl, rfl⟩
    exact quiet (quiet_of_named legible (standing.resolve_left (by simp)))

private theorem settles_generateFrom {count : Nat} (legible : before.Legible)
    (gives : Gives (ParameterNames.generateFrom position count) before changed after) :
    Settles (ParameterNames.generateFrom position count) (fun _ _ => False) before after := by
  induction count generalizing position before changed with
  | zero => exact settles_pure _ gives
  | succ count ih =>
    refine (settles_seq gives (settles_generateAt legible)
      (fun advances => ih (advances.legible legible)) fun _ _ => False.elim).mono ?_
    exact fun site name => or_self_iff.mp

theorem ran_generate (file : ClassFile) :
    ran ParameterNames.generate file = ran (ParameterNames.generateFrom 0 file.methods.length) file := by
  rw [ParameterNames.generate, ran_bind, ran_get]

private theorem settles_generate (legible : before.Legible)
    (gives : Gives ParameterNames.generate before changed after) :
    Settles ParameterNames.generate (fun _ _ => False) before after := by
  rw [Gives, ran_generate] at gives
  have settles := settles_generateFrom legible gives
  refine settles.congr fun last advances => ?_
  have same := congrArg List.length
    (members_outline (settles.advances.trans advances).outline .method)
  rw [List.length_map, List.length_map] at same
  rw [ran_generate, show last.methods.length = before.methods.length from same]

end

/-! ## The whole record -/

section

variable {before after : ClassFile} {changed : Bool}

theorem inject_eq (structure_ : Option ClassStructure) (generates : Bool) :
    inject structure_ generates = (do
      let restored ← structure_.elim (pure false) putStructure
      let named ← cond generates ParameterNames.generate (pure false)
      return restored || named) := by
  cases structure_ <;> cases generates <;> rfl

private theorem settles_inject {structure_ : Option ClassStructure} {generates : Bool}
    (legible : before.Legible) (gives : Gives (inject structure_ generates) before changed after) :
    ∃ places, Settles (inject structure_ generates) places before after := by
  rw [inject_eq] at gives ⊢
  -- Either of the two parts may be left out, and then it is a step that does nothing.
  have names : ∀ {middle changed}, Advances before middle →
      Gives (cond generates ParameterNames.generate (pure false)) middle changed after →
      Settles (cond generates ParameterNames.generate (pure false)) (fun _ _ => False) middle after := by
    intro middle changed advances given
    cases generates with
    | false => exact settles_pure _ given
    | true => exact settles_generate (advances.legible legible) given
  obtain ⟨_, middle, given, -⟩ := (gives_bind_iff _ _ _ _ _).mp gives
  obtain ⟨places, settles⟩ : ∃ places,
      Settles (structure_.elim (pure false) putStructure) places before middle := by
    cases structure_ with
    | none => exact ⟨fun _ _ => False, settles_pure _ given⟩
    | some structure_ => exact settles_putStructure legible given
  have record : ∀ {changed other}, Gives (structure_.elim (pure false) putStructure) before changed other →
      Settles (structure_.elim (pure false) putStructure) places before other := by
    intro changed other given'
    obtain ⟨-, rfl⟩ := given.unique given'
    exact settles
  exact ⟨_, settles_seq gives record names fun _ _ _ => id⟩

/-- A record that was put back can be put back again, which appends nothing to the pool, and after
that it changes nothing at all. If the first time gave no attribute a name that it did not have, then
it changes nothing the second time already. -/
theorem inject_again (before after : ClassFile) (structure_ : Option ClassStructure)
    (generates changed : Bool) (reached : before.Reached)
    (gives : Gives (inject structure_ generates) before changed after) :
    (before.AlreadyNamed after.pool → Gives (inject structure_ generates) after false after) ∧
      ∃ again last, Gives (inject structure_ generates) after again last ∧
        last.pool = after.pool ∧ last.outline = after.outline ∧
        Gives (inject structure_ generates) last false last := by
  obtain ⟨places, settles⟩ := settles_inject reached.legible gives
  refine ⟨fun already => settles.still already after (.refl after) fun _ _ _ _ => rfl, ?_⟩
  obtain ⟨again, last, given, pool, advances⟩ := settles.again after (.refl after)
  refine ⟨again, last, given, pool, advances.outline, ?_⟩
  -- The pool did not grow the second time, so no attribute got a name.
  obtain ⟨_, settles'⟩ := settles_inject (settles.advances.legible reached.legible) given
  refine settles'.still (fun _ _ _ _ named => ?_) last (.refl last) fun _ _ _ _ => rfl
  rwa [pool] at named

end

/-- A class `A` with two signatures, of which the first is for itself. -/
def signed : ClassFile :=
  ⟨0, 52, .ofEntries [.unusable, .utf8 "A", .classRef 1, .utf8 "LA;", .utf8 "Signature"], ⟨0⟩, 2, 0, [],
    [], [], [⟨4, [0, 3]⟩, ⟨4, [0, 1]⟩]⟩

def signedBytes : Bytes :=
  [0xCA, 0xFE, 0xBA, 0xBE, 0, 0, 0, 52, 0, 5, 1, 0, 1, 0x41, 7, 0, 1, 1, 0, 3, 0x4C, 0x41, 0x3B, 1, 0,
    9, 0x53, 0x69, 0x67, 0x6E, 0x61, 0x74, 0x75, 0x72, 0x65, 0, 0, 0, 2, 0, 0, 0, 0, 0, 0, 0, 0, 0, 2, 0,
    4, 0, 0, 0, 2, 0, 3, 0, 4, 0, 0, 0, 2, 0, 1]

theorem inject_again_signed :
    signed.Reached ∧ ∃ after,
      Gives (inject (some ⟨none, none, some "LB;", .empty⟩) true) signed true after ∧
      signed.AlreadyNamed after.pool ∧
      Gives (inject (some ⟨none, none, some "LB;", .empty⟩) true) after false after := by
  have reached : signed.Reached := .decoded (by decide +kernel : decode signedBytes = .ok signed)
  have gives : Gives (inject (some ⟨none, none, some "LB;", .empty⟩) true) signed true
      (ran (inject (some ⟨none, none, some "LB;", .empty⟩) true) signed).2 :=
    Prod.ext (by decide +kernel) rfl
  have grows : Extends signed.pool (ran (inject (some ⟨none, none, some "LB;", .empty⟩) true) signed).2.pool :=
    (gives.moved (moves_inject _ _) : SameNames signed _).pool
  have already := alreadyNamed_of_within (fun site item member => by
    cases site with
    | wholeClass => revert item; decide
    | member kind position => cases kind <;> simp [attributeList, attributesAt, members, signed] at member)
    grows
  exact ⟨reached, _, gives, already, (inject_again _ _ _ _ _ reached gives).1 already⟩

/-- An attribute that gets its name from the first signature that is put there is the one that the
second replaces. -/
theorem inject_changes_again :
    ¬ ∀ (before after : ClassFile) (structure_ : Option ClassStructure) (generates changed : Bool),
      before.Reached → Gives (inject structure_ generates) before changed after →
      Gives (inject structure_ generates) after false after := by
  intro always
  have reached : nameless.Reached := .decoded (by decide +kernel : decode namelessBytes = .ok nameless)
  have first : Gives (inject (some ⟨none, none, some "LA;", .empty⟩) false) nameless true
      (ran (inject (some ⟨none, none, some "LA;", .empty⟩) false) nameless).2 :=
    Prod.ext (by decide +kernel) rfl
  have second : (ran (inject (some ⟨none, none, some "LA;", .empty⟩) false)
      (ran (inject (some ⟨none, none, some "LA;", .empty⟩) false) nameless).2).1 = .ok true := by
    decide +kernel
  have again := always _ _ _ _ _ reached first
  rw [Gives, Prod.ext_iff, second] at again
  cases again.1

end JarRemap.Injection
