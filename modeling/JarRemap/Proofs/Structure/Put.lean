import JarRemap.Proofs.ClassFile.Attributes
import JarRemap.Proofs.ConstantPool.Calls
import JarRemap.Structure.Inject

/-!
# Attributes that are put on a class

An attribute that is put takes the place of the first one with its name, or comes last if there is
none. What it says is read through the pool, which only grows after that, so it keeps saying it. All
that may come in front of it is an attribute whose name was missing from the pool.
-/

namespace JarRemap

open ClassFile ConstantPool Attribute

/-- An attribute that is to be there, and what its body has to say. -/
structure Demand where
  name : String
  Says : ConstantPool → Bytes → Prop
  /-- A pool that grows takes nothing back. -/
  later : ∀ {old new : ConstantPool} {body : Bytes}, Grows old new → Says old body → Says new body

/-! ## Lists -/

/-- What stands at the place has the name and says what it has to, and no attribute in front of it has
the name unless this was missing from the pool at first. -/
structure Demand.Placed (demand : Demand) (base pool : ConstantPool) (list : List Attribute)
    (place : Nat) : Prop where
  item : ∃ item, list[place]? = some item ∧ pool.utf8 item.name = .ok demand.name ∧
    demand.Says pool item.body
  first : ∀ earlier < place, ∀ other, list[earlier]? = some other →
    pool.utf8 other.name = .ok demand.name → base.entries.size ≤ other.name.toNat

/-- Each of the demands has its place, and everything at another place is as it was. -/
structure Fulfils (base pool : ConstantPool) (demands : List Demand) (places : List Nat)
    (old new : List Attribute) : Prop where
  placed : List.Forall₂ (fun demand => demand.Placed base pool new) demands places
  kept : ∀ (position : Nat) item, old[position]? = some item →
    ∃ item', new[position]? = some item' ∧ item'.name = item.name ∧
      (position ∉ places → item' = item)
  fresh : ∀ position, old.length ≤ position → position < new.length → position ∈ places

section

variable {base pool grown : ConstantPool} {demands others : List Demand} {places places' : List Nat}
  {old middle new : List Attribute}

theorem Fulfils.refl (base pool : ConstantPool) (list : List Attribute) :
    Fulfils base pool [] [] list list :=
  ⟨.nil, fun _ item here => ⟨item, here, rfl, fun _ => rfl⟩, fun _ _ _ => by omega⟩

theorem outside_of_new_text {index : Index} {text : String} (extends_ : Extends pool grown)
    (missing : pool.utf8 index ≠ .ok text) (reads : grown.utf8 index = .ok text) :
    pool.entries.size ≤ index.toNat := by
  by_contra inside
  have here := Array.getElem?_eq_getElem (Nat.not_le.mp inside)
  generalize pool.entries[index.toNat] = entry at here
  obtain ⟨there, usable⟩ := (lookup_ok_iff _ _ _).mp ((utf8_ok_iff _ _ _).mp reads)
  obtain rfl := Option.some.inj ((extends_.entry _ _ here).symm.trans there)
  exact missing ((utf8_ok_iff _ _ _).mpr ((lookup_ok_iff _ _ _).mpr ⟨here, usable⟩))

/-- What stands at a place still does after others were put, if these have other names. -/
private theorem Demand.Placed.later {demand : Demand} {place : Nat}
    (placed : demand.Placed base pool middle place) (wide : base.entries.size ≤ pool.entries.size)
    (grows : Grows pool grown) (rest : Fulfils base grown others places middle new)
    (different : ∀ other ∈ others, demand.name ≠ other.name) : demand.Placed base grown new place := by
  obtain ⟨⟨item, here, named, told⟩, first⟩ := placed
  obtain ⟨item', there, named', same⟩ := rest.kept place item here
  have elsewhere : place ∉ places := by
    intro member
    obtain ⟨position, found⟩ := List.mem_iff_getElem?.mp member
    obtain ⟨other, chosen, put⟩ := forall₂_getElem? rest.placed.flip found
    obtain ⟨⟨_, there', read, -⟩, -⟩ := put
    obtain rfl := Option.some.inj (there.symm.trans there')
    rw [named', grows.extends.utf8 named] at read
    exact different other (List.mem_of_getElem? chosen) (Except.ok.inj read)
  obtain rfl := same elsewhere
  refine ⟨⟨item', there, grows.extends.utf8 named, demand.later grows told⟩, ?_⟩
  intro earlier before other there' read
  have within : earlier < middle.length := by
    have bound := (List.getElem?_eq_some_iff.mp here).1
    omega
  obtain ⟨_, there'', same', -⟩ := rest.kept earlier _ (List.getElem?_eq_getElem within)
  obtain rfl := Option.some.inj (there'.symm.trans there'')
  rw [same'] at read ⊢
  -- Either it had the name before, or the slot of its name was added in the meantime.
  by_cases already : pool.utf8 middle[earlier].name = .ok demand.name
  · exact first earlier before _ (List.getElem?_eq_getElem within) already
  · exact wide.trans (outside_of_new_text grows.extends already read)

theorem Fulfils.trans (first : Fulfils base pool demands places old middle)
    (wide : base.entries.size ≤ pool.entries.size) (grows : Grows pool grown)
    (second : Fulfils base grown others places' middle new)
    (different : ∀ demand ∈ demands, ∀ other ∈ others, demand.name ≠ other.name) :
    Fulfils base grown (demands ++ others) (places ++ places') old new := by
  refine ⟨List.rel_append ?_ second.placed, fun position item here => ?_, fun position behind within => ?_⟩
  · refine forall₂_of_getElem? first.placed.length_eq.symm fun position demand chosen => ?_
    obtain ⟨place, found, placed⟩ := forall₂_getElem? first.placed chosen
    exact ⟨place, found, placed.later wide grows second (different demand (List.mem_of_getElem? chosen))⟩
  · obtain ⟨item', here', named, same⟩ := first.kept position item here
    obtain ⟨item'', here'', named', same'⟩ := second.kept position item' here'
    refine ⟨item'', here'', named'.trans named, fun outside => ?_⟩
    rw [List.mem_append, not_or] at outside
    rw [same' outside.2, same outside.1]
  · rw [List.mem_append]
    by_cases already : position < middle.length
    · exact .inl (first.fresh position behind already)
    · exact .inr (second.fresh position (Nat.not_lt.mp already) within)

/-- The first attribute with the name gets the body. -/
theorem fulfils_replaced {demand : Demand} {front back : List Attribute} {item : Attribute}
    {body : Bytes} (first : First pool demand.name old front item back) (told : demand.Says pool body) :
    Fulfils base pool [demand] [front.length] old (setBody front.length body old) := by
  have here : old[front.length]? = some item := by simp [first.split]
  refine ⟨.cons ⟨⟨{ item with body := body }, ?_, first.named, told⟩, ?_⟩ .nil, ?_, ?_⟩
  · rw [setBody, List.getElem?_modify_eq, here]
    rfl
  · intro earlier before other there read
    rw [setBody, List.getElem?_modify_ne _ _ (by omega), first.split, List.getElem?_append_left before]
      at there
    exact absurd read (first.before other (List.mem_of_getElem? there))
  · intro position other there
    rw [setBody, List.getElem?_modify, there]
    refine ⟨_, rfl, by split <;> rfl, fun elsewhere => ?_⟩
    exact if_neg fun same => elsewhere (List.mem_singleton.mpr same.symm)
  · intro position behind within
    rw [setBody, List.length_modify] at within
    omega

/-- An attribute with a name that is new comes last. -/
theorem fulfils_appended {demand : Demand} {index : Index} {body : Bytes}
    (absent : Absent pool demand.name old) (wide : base.entries.size ≤ pool.entries.size)
    (extends_ : Extends pool grown) (named : grown.utf8 index = .ok demand.name)
    (told : demand.Says grown body) :
    Fulfils base grown [demand] [old.length] old (old ++ [⟨index, body⟩]) := by
  refine ⟨.cons ⟨⟨⟨index, body⟩, by simp, named, told⟩, ?_⟩ .nil, ?_, ?_⟩
  · intro earlier before other there read
    rw [List.getElem?_append_left before] at there
    exact wide.trans (outside_of_new_text extends_ (absent other (List.mem_of_getElem? there)) read)
  · intro position item here
    have within := (List.getElem?_eq_some_iff.mp here).1
    exact ⟨item, by rw [List.getElem?_append_left within, here], rfl, fun _ => rfl⟩
  · intro position behind within
    rw [List.length_append, List.length_singleton] at within
    simp
    omega

end

/-! ## Classes -/

def Member.outline (member : Member) : Member := { member with attributes := [] }

/-- Everything but the pool and the attributes. -/
def ClassFile.outline (file : ClassFile) : ClassFile :=
  { file with
    pool := .empty
    fields := file.fields.map Member.outline
    methods := file.methods.map Member.outline
    attributes := [] }

theorem members_outline {before after : ClassFile} (outline : after.outline = before.outline)
    (kind : MemberKind) :
    (after.members kind).map Member.outline = (before.members kind).map Member.outline := by
  cases kind with
  | field => exact congrArg ClassFile.fields outline
  | method => exact congrArg ClassFile.methods outline

theorem slots_of_outline {first second : Member} (same : first.outline = second.outline) :
    first.name = second.name ∧ first.descriptor = second.descriptor := by
  obtain ⟨-, name, descriptor, -⟩ := Member.mk.inj same
  exact ⟨name, descriptor⟩

theorem isSome_attributesAt_of_outline {before after : ClassFile}
    (outline : after.outline = before.outline) (site : Site) :
    (after.attributesAt site).isSome = (before.attributesAt site).isSome := by
  cases site with
  | wholeClass => rfl
  | member kind position =>
    have same := congrArg List.length (members_outline outline kind)
    rw [List.length_map, List.length_map] at same
    rw [Bool.eq_iff_iff, attributesAt, attributesAt, Option.isSome_map, Option.isSome_map,
      isSome_getElem?, isSome_getElem?, same]

/-- The pool grew, and what each site was to get was put there. -/
structure Restores (base : ConstantPool) (demands : Site → List Demand) (old new : ClassFile) :
    Prop where
  pool : Grows old.pool new.pool
  outline : new.outline = old.outline
  fulfils : ∀ site, ∃ places,
    Fulfils base new.pool (demands site) places (old.attributeList site) (new.attributeList site)

/-- What one site is to get. -/
def only (site : Site) (demands : List Demand) (other : Site) : List Demand :=
  if other = site then demands else []

section

variable {base : ConstantPool} {demands others : Site → List Demand} {old middle new : ClassFile}

theorem Restores.nothing (base : ConstantPool) (file : ClassFile) :
    Restores base (fun _ => []) file file :=
  ⟨.refl, rfl, fun _ => ⟨[], .refl _ _ _⟩⟩

theorem Restores.ofPool (base : ConstantPool) {file : ClassFile} {pool : ConstantPool}
    (grows : Grows file.pool pool) : Restores base (fun _ => []) file { file with pool := pool } :=
  ⟨grows, rfl, fun site => ⟨[], by rw [attributeList_withPool]; exact .refl _ _ _⟩⟩

theorem size_le_of_extends {old new : ConstantPool} (extends_ : Extends old new) :
    old.entries.size ≤ new.entries.size := by
  by_contra shorter
  have here := extends_.entry _ _ (Array.getElem?_eq_getElem (Nat.not_le.mp shorter))
  rw [Array.getElem?_eq_none (Nat.le_refl _)] at here
  cases here

theorem Restores.trans (wide : base.entries.size ≤ old.pool.entries.size)
    (first : Restores base demands old middle) (second : Restores base others middle new)
    (different : ∀ site, ∀ demand ∈ demands site, ∀ other ∈ others site, demand.name ≠ other.name) :
    Restores base (fun site => demands site ++ others site) old new := by
  refine ⟨first.pool.trans second.pool, second.outline.trans first.outline, fun site => ?_⟩
  obtain ⟨places, early⟩ := first.fulfils site
  obtain ⟨places', late⟩ := second.fulfils site
  exact ⟨_, early.trans (wide.trans (size_le_of_extends first.pool.extends)) second.pool late
    (different site)⟩

theorem Restores.congr (restores : Restores base demands old new)
    (same : ∀ site, demands site = others site) : Restores base others old new :=
  funext same ▸ restores

theorem outline_withAttributesAt (file : ClassFile) (site : Site) (attributes : List Attribute) :
    (file.withAttributesAt site attributes).outline = file.outline := by
  have bare : ∀ (members : List Member) (position : Nat),
      (members.modify position fun member => { member with attributes := attributes }).map
        Member.outline = members.map Member.outline := by
    intro members position
    refine List.ext_getElem? fun place => ?_
    rw [List.getElem?_map, List.getElem?_map, List.getElem?_modify]
    cases members[place]? <;> simp
    split <;> rfl
  cases site with
  | wholeClass => rfl
  | member kind position =>
    cases kind with
    | field => simp only [ClassFile.outline, withAttributesAt, withMembers, members, bare]
    | method => simp only [ClassFile.outline, withAttributesAt, withMembers, members, bare]

/-- One site of the class with other attributes, in a pool that grew. -/
private theorem restores_withAttributesAt {site : Site} {demand : Demand} {pool : ConstantPool}
    {places : List Nat} {attributes : List Attribute} (there : (old.attributesAt site).isSome)
    (grows : Grows old.pool pool)
    (fulfils : Fulfils base pool [demand] places (old.attributeList site) attributes) :
    Restores base (only site [demand]) old
      (withAttributesAt { old with pool := pool } site attributes) := by
  have there' : (attributesAt { old with pool := pool } site).isSome := by rwa [attributesAt_withPool]
  refine ⟨by rwa [withAttributesAt_pool], outline_withAttributesAt _ _ _, fun other => ?_⟩
  rw [withAttributesAt_pool]
  by_cases same : other = site
  · subst same
    rw [only, if_pos rfl, attributeList_withAttributesAt_self there']
    exact ⟨places, fulfils⟩
  · rw [only, if_neg same, attributeList_withAttributesAt_other same, attributeList_withPool]
    exact ⟨[], .refl _ _ _⟩

theorem only_append (site : Site) (first second : List Demand) (other : Site) :
    only site first other ++ only site second other = only site (first ++ second) other := by
  rw [only, only, only]
  split <;> rfl

theorem Restores.afterPool (asked : InPool Grows old middle) (restores : Restores base demands middle new) :
    Restores base demands old new := by
  refine ⟨asked.pool.trans restores.pool, ?_, fun site => asked.attributeList_eq site ▸ restores.fulfils site⟩
  rw [restores.outline, asked.rest]
  rfl

end

/-! ## Putting -/

/-- A pool that is in order and has all slots of another one. -/
structure Ready (base pool : ConstantPool) : Prop where
  indexed : pool.Indexed
  faithful : pool.Faithful
  wide : base.entries.size ≤ pool.entries.size

theorem Ready.later {base pool grown : ConstantPool} (ready : Ready base pool) (grows : Grows pool grown) :
    Ready base grown :=
  ⟨grows.extends.indexed ready.indexed, grows.faithful ready.faithful,
    ready.wide.trans (size_le_of_extends grows.extends)⟩

namespace Injection

theorem gives_ofEdit_iff {α : Type} (edit : ClassEdit α) (before : ClassFile) (value : α)
    (after : ClassFile) : Gives (ofEdit edit) before value after ↔ Gives edit before value after := by
  have runs : ran (ofEdit edit) before =
      ((ran edit before).1.mapError .classFile, (ran edit before).2) := rfl
  rw [Gives, runs, Gives, Prod.ext_iff, Prod.ext_iff]
  cases (ran edit before).1 <;> simp [Except.mapError]

theorem gives_inPool_iff {α : Type} (edit : PoolEdit α) (before : ClassFile) (value : α)
    (after : ClassFile) :
    Gives (Injection.inPool edit) before value after ↔
      ∃ pool, Gives edit before.pool value pool ∧ after = { before with pool := pool } := by
  rw [Injection.inPool, gives_ofEdit_iff, ClassFile.gives_inPool_iff]

section

variable {base : ConstantPool} {site : Site} {before after : ClassFile} {changed : Bool}

private theorem attributesAt_eq (there : (before.attributesAt site).isSome) :
    before.attributesAt site = some (before.attributeList site) := by
  obtain ⟨attributes, found⟩ := Option.isSome_iff_exists.mp there
  rw [attributeList, found]
  rfl

theorem bind_body?_eq (file : ClassFile) (site : Site) (name : String) :
    (file.attributesAt site).bind (Attribute.body? file.pool name) = file.bodyAt site name := by
  rw [bodyAt, attributeList]
  cases file.attributesAt site <;> rfl

/-- The first attribute with the name gets the body, or a new one comes last. -/
theorem gives_putAttribute_iff {name : String} {body : Bytes} (there : (before.attributesAt site).isSome) :
    Gives (putAttribute site name body) before () after ↔
      (∃ front item back, First before.pool name (before.attributeList site) front item back ∧
        after = before.withAttributesAt site
          (Attribute.setBody front.length body (before.attributeList site))) ∨
      (Absent before.pool name (before.attributeList site) ∧ ∃ index pool,
        Gives (utf8Index name) before.pool index pool ∧
        after = withAttributesAt { before with pool := pool } site
          (before.attributeList site ++ [⟨index, body⟩])) := by
  simp only [putAttribute, gives_bind_iff, gives_get_iff]
  constructor
  · rintro ⟨_, before, ⟨rfl, rfl⟩, gives⟩
    rw [attributesAt_eq there] at gives
    rcases first_or_absent before.pool name (before.attributeList site) with
      ⟨front, item, back, first⟩ | absent
    · simp only [first.position?_eq, gives_modify_iff] at gives
      exact .inl ⟨front, item, back, first, gives⟩
    · simp only [absent.position?_eq, gives_bind_iff, ClassFile.gives_inPool_iff, gives_modify_iff]
        at gives
      obtain ⟨index, _, ⟨pool, interned, rfl⟩, rfl⟩ := gives
      exact .inr ⟨absent, index, pool, interned, rfl⟩
  · intro either
    refine ⟨before, before, ⟨rfl, rfl⟩, ?_⟩
    rw [attributesAt_eq there]
    rcases either with ⟨front, item, back, first, rfl⟩ | ⟨absent, index, pool, interned, rfl⟩
    · simp only [first.position?_eq, gives_modify_iff]
    · simp only [absent.position?_eq, gives_bind_iff, ClassFile.gives_inPool_iff, gives_modify_iff]
      exact ⟨index, _, ⟨pool, interned, rfl⟩, rfl⟩

/-- An attribute that has the body already is left alone. -/
theorem gives_put_iff {name : String} {body : Bytes} :
    Gives (put site name body) before changed after ↔
      (before.bodyAt site name = some body ∧ changed = false ∧ after = before) ∨
      (before.bodyAt site name ≠ some body ∧ changed = true ∧
        Gives (putAttribute site name body) before () after) := by
  simp only [put, gives_bind_iff, gives_get_iff, bind_body?_eq]
  -- The body is compared before anything is asked of the pool, so nothing is different when it is
  -- the same.
  constructor
  · rintro ⟨_, before, ⟨rfl, rfl⟩, gives⟩
    split at gives
    next same => exact .inl ⟨same, (gives_pure_iff _ _ _ _).mp gives⟩
    next different =>
      simp only [gives_bind_iff, gives_ofEdit_iff, gives_pure_iff] at gives
      obtain ⟨_, _, puts, rfl, rfl⟩ := gives
      exact .inr ⟨different, rfl, puts⟩
  · rintro (⟨same, rfl, rfl⟩ | ⟨different, rfl, puts⟩)
    · refine ⟨after, after, ⟨rfl, rfl⟩, ?_⟩
      rw [if_pos same, gives_pure_iff]
      exact ⟨rfl, rfl⟩
    · refine ⟨before, before, ⟨rfl, rfl⟩, ?_⟩
      rw [if_neg different]
      simp only [gives_bind_iff, gives_ofEdit_iff, gives_pure_iff]
      exact ⟨(), after, puts, trivial, rfl⟩

/-- Without an attribute with the name, a new one comes last. -/
theorem gives_put_absent_iff {name : String} {body : Bytes} (there : (before.attributesAt site).isSome)
    (absent : Absent before.pool name (before.attributeList site)) :
    Gives (put site name body) before changed after ↔
      changed = true ∧ ∃ index pool, Gives (utf8Index name) before.pool index pool ∧
        after = withAttributesAt { before with pool := pool } site
          (before.attributeList site ++ [⟨index, body⟩]) := by
  rw [gives_put_iff, bodyAt, absent.body?_eq, gives_putAttribute_iff there]
  constructor
  · rintro (⟨none, -⟩ | ⟨-, rfl, ⟨front, item, back, first, -⟩ | ⟨-, put⟩⟩)
    · cases none
    · exact absurd first.named (absent item (by simp [first.split]))
    · exact ⟨rfl, put⟩
  · rintro ⟨rfl, put⟩
    exact .inr ⟨by simp, rfl, .inr ⟨absent, put⟩⟩

private theorem putAttribute_gives {demand : Demand} {body : Bytes}
    (there : (before.attributesAt site).isSome) (ready : Ready base before.pool)
    (told : demand.Says before.pool body) (gives : Gives (putAttribute site demand.name body) before () after) :
    Restores base (only site [demand]) before after := by
  rcases (gives_putAttribute_iff there).mp gives with
    ⟨front, item, back, first, rfl⟩ | ⟨absent, index, pool, interned, rfl⟩
  · exact restores_withAttributesAt there .refl (fulfils_replaced first told)
  · have grows : Grows before.pool pool := interned.moved (moves_utf8Index _)
    exact restores_withAttributesAt there grows (fulfils_appended absent ready.wide grows.extends
      (utf8Index_reads ready.indexed interned) (demand.later grows told))

/-- A body that says what it has to is put where it belongs. -/
theorem put_gives {demand : Demand} {body : Bytes} (there : (before.attributesAt site).isSome)
    (ready : Ready base before.pool) (told : demand.Says before.pool body)
    (gives : Gives (put site demand.name body) before changed after) :
    Restores base (only site [demand]) before after := by
  rcases gives_put_iff.mp gives with ⟨same, -, rfl⟩ | ⟨-, -, puts⟩
  · -- The attribute has the body already, so putting it there would change nothing.
    obtain ⟨front, item, back, first, rfl⟩ := first_of_body? same
    have fulfils : Fulfils base after.pool [demand] _ _ _ := fulfils_replaced first told
    have unchanged : Attribute.setBody front.length item.body (after.attributeList site) =
        after.attributeList site := by rw [first.split, setBody_append]
    have restores := restores_withAttributesAt there .refl fulfils
    rwa [unchanged, withAttributesAt_attributeList] at restores
  · exact putAttribute_gives there ready told puts

end

end Injection

end JarRemap
