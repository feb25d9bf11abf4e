import JarRemap.Proofs.ClassFile.Attributes
import JarRemap.Proofs.ConstantPool.Meaning
import JarRemap.Proofs.RenamePlan
import JarRemap.Proofs.Text.Pieces

/-!
# What call sites are looked up by

A call site makes objects of the class that its descriptor returns, and implements a method of this
class. The name of the method stands at the site itself, but its descriptor only among the arguments of
the bootstrap method, if it is there at all.
-/

namespace JarRemap

open Attribute ClassFile RenamePlan

/-- The descriptor returns objects of this class, which is named behind its last parenthesis. -/
def Descriptor.Returns (descriptor interface : String) : Prop :=
  ∃ parameters, descriptor.toList = parameters ++ ')' :: 'L' :: (interface.toList ++ [';']) ∧
    ')' ∉ interface.toList

/-- The first argument of the bootstrap method in this place is the type of methods with this
descriptor. -/
def ClassFile.Erases (file : ClassFile) (place : Index) (descriptor : String) : Prop :=
  ∃ body methods method argument,
    file.bodyAt .wholeClass bootstrapMethodsName = some body ∧
      bootstrapMethods.parse bootstrapMethodsName body = .ok methods ∧
      methods[place.toNat]? = some method ∧ method.arguments.head? = some argument ∧
      file.pool.meaning argument = .ok (.methodType descriptor)

/-- A call site with this bootstrap method, name and descriptor gets this name: that of the method in the
class that it returns, looked up by the erased descriptor or, without one, by the name alone. -/
inductive SymbolMap.NamesSite (symbols : SymbolMap) (file : ClassFile) (place : Index)
    (name descriptor : String) : String → Prop
  | erased {interface erased : String} (returns : Descriptor.Returns descriptor interface)
      (erases : file.Erases place erased) :
      NamesSite symbols file place name descriptor
        ((symbols.callSite? interface name (some erased)).getD name)
  | byName {interface : String} (returns : Descriptor.Returns descriptor interface)
      (unknown : ∀ erased, ¬ file.Erases place erased) :
      NamesSite symbols file place name descriptor ((symbols.callSite? interface name none).getD name)
  | other (returns : ∀ interface, ¬ Descriptor.Returns descriptor interface) :
      NamesSite symbols file place name descriptor name

/-! ## The class that is returned -/

theorem producedInterface_eq_some_iff {descriptor interface : String} :
    producedInterface descriptor = some interface ↔ Descriptor.Returns descriptor interface := by
  simp only [producedInterface, Option.bind_eq_bind, Option.bind_eq_some_iff,
    Text.cutLast?_eq_some_iff, Text.after?_eq_some_iff, Text.before?_eq_some_iff, Prod.exists]
  constructor
  · rintro ⟨parameters, _, ⟨whole, free⟩, _, rfl, name, rfl, made⟩
    obtain rfl := Option.some.inj made
    rw [Descriptor.Returns, String.toList_ofList]
    exact ⟨parameters, whole, fun member => free (by simp [member])⟩
  · rintro ⟨parameters, whole, free⟩
    exact ⟨parameters, _, ⟨whole, by simp [free]⟩, _, rfl, _, rfl,
      congrArg some String.ofList_toList⟩

theorem Descriptor.Returns.unique {descriptor interface other : String}
    (returns : Descriptor.Returns descriptor interface) (again : Descriptor.Returns descriptor other) :
    interface = other :=
  Option.some.inj ((producedInterface_eq_some_iff.mpr returns).symm.trans
    (producedInterface_eq_some_iff.mpr again))

/-! ## The erased descriptor -/

section

variable {symbols : SymbolMap} {file : ClassFile} {methods : List BootstrapMethod} {place : Index}
  {name descriptor other : String}

theorem ClassFile.Erases.unique (erases : file.Erases place descriptor)
    (again : file.Erases place other) : descriptor = other := by
  obtain ⟨body, methods, method, argument, there, parsed, here, first, meant⟩ := erases
  obtain ⟨body', methods', method', argument', there', parsed', here', first', meant'⟩ := again
  -- One by one, both lead to the same body, method and argument.
  obtain rfl := Option.some.inj (there.symm.trans there')
  obtain rfl := Except.ok.inj (parsed.symm.trans parsed')
  obtain rfl := Option.some.inj (here.symm.trans here')
  obtain rfl := Option.some.inj (first.symm.trans first')
  exact Meaning.methodType.inj (Except.ok.inj (meant.symm.trans meant'))

/-- The bootstrap methods that the plan reads are those of the first attribute for them. -/
theorem erasedDescriptor_eq_some_iff
    (booted : ofAttribute file bootstrapMethodsName bootstrapMethods [] .ok = .ok methods) :
    erasedDescriptor file.pool methods place = some descriptor ↔ file.Erases place descriptor := by
  have listed : file.Erases place descriptor ↔ ∃ method, methods[place.toNat]? = some method ∧
      ∃ argument, method.arguments.head? = some argument ∧
        file.pool.meaning argument = .ok (.methodType descriptor) := by
    cases there : file.bodyAt .wholeClass bootstrapMethodsName with
    | none =>
      rw [ofAttribute, show body? file.pool _ file.attributes = none from there] at booted
      obtain rfl := Except.ok.inj booted
      simp [ClassFile.Erases, there]
    | some body =>
      rw [ofAttribute, show body? file.pool _ file.attributes = some body from there,
        bind_ok_iff] at booted
      obtain ⟨_, parsed, same⟩ := booted
      obtain rfl := Except.ok.inj same
      simp [ClassFile.Erases, there, parsed]
  simp only [listed, erasedDescriptor, Option.bind_eq_bind, Option.bind_eq_some_iff]
  refine exists_congr fun method => and_congr_right fun _ => exists_congr fun argument =>
    and_congr_right fun _ => ?_
  rw [ConstantPool.meaning_methodType_iff]
  split
  next text found =>
    cases read : file.pool.utf8 text <;> simp [found, read, Except.toOption]
  next other =>
    simp only [reduceCtorEq, false_iff, not_exists, not_and]
    exact fun text found => absurd found (other text)

/-- The plan gives a call site the name that it is to have. -/
theorem renamedCallSite_names
    (booted : ofAttribute file bootstrapMethodsName bootstrapMethods [] .ok = .ok methods) :
    symbols.NamesSite file place name descriptor
      (renamedCallSite symbols file.pool methods place name descriptor) := by
  rw [renamedCallSite]
  split
  next interface produced =>
    have returns := producedInterface_eq_some_iff.mp produced
    cases erases : erasedDescriptor file.pool methods place with
    | none =>
      refine .byName returns fun erased found => ?_
      rw [(erasedDescriptor_eq_some_iff booted).mpr found] at erases
      cases erases
    | some erased => exact .erased returns ((erasedDescriptor_eq_some_iff booted).mp erases)
  next produced =>
    refine .other fun interface returns => ?_
    rw [producedInterface_eq_some_iff.mpr returns] at produced
    cases produced

theorem SymbolMap.NamesSite.unique {new again : String}
    (names : symbols.NamesSite file place name descriptor new)
    (names' : symbols.NamesSite file place name descriptor again) : new = again := by
  cases names with
  | erased returns erases =>
    cases names' with
    | erased returns' erases' => rw [returns.unique returns', erases.unique erases']
    | byName _ unknown => exact absurd erases (unknown _)
    | other none_ => exact absurd returns (none_ _)
  | byName returns unknown =>
    cases names' with
    | erased _ erases => exact absurd erases (unknown _)
    | byName returns' => rw [returns.unique returns']
    | other none_ => exact absurd returns (none_ _)
  | other none_ =>
    cases names' with
    | erased returns => exact absurd returns (none_ _)
    | byName returns => exact absurd returns (none_ _)
    | other => rfl

end

end JarRemap
