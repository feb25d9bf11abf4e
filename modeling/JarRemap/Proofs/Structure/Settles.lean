import JarRemap.Proofs.ClassFile.Reached
import JarRemap.Proofs.ConstantPool.Again
import JarRemap.Proofs.Structure.Put
import Mathlib.Data.List.Find

/-!
# Edits that settle

An edit that put attributes on a class finds everything that it asks for when it is done again, so it
adds nothing to the pool, and nothing else either if the attributes it put still have their bodies.
Other edits in between keep them so. Only an attribute that had no name could come in front of them,
once its name is in the pool.
-/

namespace JarRemap

open ClassFile ConstantPool Attribute

/-! ## Names of attributes -/

/-- The pool gives no attribute of the class a name that it does not have already. -/
def ClassFile.AlreadyNamed (file : ClassFile) (pool : ConstantPool) : Prop :=
  ∀ site, ∀ item ∈ file.attributeList site, ∀ text, pool.utf8 item.name = .ok text →
    file.pool.utf8 item.name = .ok text

section

variable {file : ClassFile} {pool grown : ConstantPool} {site : Site} {name : String}

theorem ClassFile.AlreadyNamed.earlier (already : file.AlreadyNamed grown) (extends_ : Extends pool grown) :
    file.AlreadyNamed pool :=
  fun site item member _ named => already site item member _ (extends_.utf8 named)

/-- A pool that grows names only attributes whose slots were missing. -/
theorem ClassFile.alreadyNamed_of_within
    (within : ∀ site, ∀ item ∈ file.attributeList site, item.name.toNat < file.pool.entries.size)
    (extends_ : Extends file.pool pool) : file.AlreadyNamed pool := by
  intro site item member text named
  by_contra unnamed
  exact absurd (within site item member) (Nat.not_lt.mpr (outside_of_new_text extends_ unnamed named))

private theorem body?_of_same_names {old new : ConstantPool} {attributes : List Attribute}
    (same : ∀ item ∈ attributes, new.utf8 item.name = .ok name ↔ old.utf8 item.name = .ok name) :
    body? new name attributes = body? old name attributes := by
  rw [body?, body?, List.find?_congr fun item member => ?_]
  rw [Bool.eq_iff_iff, isNamed_iff, isNamed_iff]
  exact same item member

private theorem ClassFile.AlreadyNamed.body?_eq (already : file.AlreadyNamed pool)
    (extends_ : Extends file.pool pool) (site : Site) (name : String) :
    body? pool name (file.attributeList site) = file.bodyAt site name :=
  body?_of_same_names fun item member => ⟨already site item member _, extends_.utf8⟩

theorem isSome_bodyAt : (file.bodyAt site name).isSome ↔
    ∃ item ∈ file.attributeList site, file.pool.utf8 item.name = .ok name := by
  rw [bodyAt, body?, Option.isSome_map, List.find?_isSome]
  simp only [isNamed_iff]

end

/-! ## What edits of attributes do -/

/-- The pool grew, and everything but attributes stayed. Attributes that are new have names, and those
of members are still there. -/
structure Advances (old new : ClassFile) : Prop where
  pool : Grows old.pool new.pool
  outline : new.outline = old.outline
  named : ∀ site, ∀ item ∈ new.attributeList site, (∃ text, new.pool.utf8 item.name = .ok text) ∨
    ∃ other ∈ old.attributeList site, other.name = item.name
  kept : ∀ site, site ≠ .wholeClass → ∀ item ∈ old.attributeList site,
    ∃ other ∈ new.attributeList site, other.name = item.name

section

variable {old middle new : ClassFile} {pool : ConstantPool} {site : Site} {name : String}

theorem Advances.refl (file : ClassFile) : Advances file file :=
  ⟨.refl, rfl, fun _ item member => .inr ⟨item, member, rfl⟩, fun _ _ item member => ⟨item, member, rfl⟩⟩

theorem Advances.trans (first : Advances old middle) (second : Advances middle new) :
    Advances old new where
  pool := first.pool.trans second.pool
  outline := second.outline.trans first.outline
  named site item member := by
    rcases second.named site item member with named | ⟨other, found, same⟩
    · exact .inl named
    · rcases first.named site other found with ⟨text, named⟩ | ⟨earlier, there, same'⟩
      · exact .inl ⟨text, same ▸ second.pool.extends.utf8 named⟩
      · exact .inr ⟨earlier, there, same'.trans same⟩
  kept site member item found := by
    obtain ⟨other, here, same⟩ := first.kept site member item found
    obtain ⟨last, there, same'⟩ := second.kept site member other here
    exact ⟨last, there, same'.trans same⟩

theorem Advances.ofPool (asked : InPool Grows old new) : Advances old new where
  pool := asked.pool
  outline := by rw [asked.rest]; rfl
  named site item member := .inr ⟨item, asked.attributeList_eq site ▸ member, rfl⟩
  kept site _ item member := ⟨item, (asked.attributeList_eq site).symm ▸ member, rfl⟩

theorem Advances.legible (advances : Advances old new) (legible : old.Legible) : new.Legible where
  indexed := advances.pool.extends.indexed legible.indexed
  members kind member found := by
    have bare : member.outline ∈ (old.members kind).map Member.outline := by
      rw [← members_outline advances.outline]
      exact List.mem_map_of_mem found
    obtain ⟨earlier, there, same⟩ := List.mem_map.mp bare
    obtain ⟨name, descriptor⟩ := slots_of_outline same
    obtain ⟨⟨text, named⟩, text', described⟩ := legible.members kind earlier there
    exact ⟨⟨text, advances.pool.extends.utf8 (name ▸ named)⟩,
      text', advances.pool.extends.utf8 (descriptor ▸ described)⟩

theorem Advances.isSome_attributesAt (advances : Advances old new)
    (there : (old.attributesAt site).isSome) : (new.attributesAt site).isSome := by
  rwa [isSome_attributesAt_of_outline advances.outline]

/-- A member that has an attribute with the name still has one. -/
theorem Advances.isSome_bodyAt (advances : Advances old new) (member : site ≠ .wholeClass)
    (there : (old.bodyAt site name).isSome) : (new.bodyAt site name).isSome := by
  rw [JarRemap.isSome_bodyAt] at there ⊢
  obtain ⟨item, found, named⟩ := there
  obtain ⟨other, found', same⟩ := advances.kept site member item found
  exact ⟨other, found', same ▸ advances.pool.extends.utf8 named⟩

theorem Advances.alreadyNamed (advances : Advances old new) (grows : Grows new.pool pool)
    (already : old.AlreadyNamed pool) : new.AlreadyNamed pool := by
  intro site item member text named
  -- A new attribute has a name already, and an old one has the name that it had.
  rcases advances.named site item member with ⟨found, read⟩ | ⟨other, there, same⟩
  · obtain rfl := Except.ok.inj ((grows.extends.utf8 read).symm.trans named)
    exact read
  · rw [← same] at named ⊢
    exact advances.pool.extends.utf8 (already site other there text named)

/-- One site got other attributes, in a pool that grew. -/
theorem advances_withAttributesAt {attributes : List Attribute} (there : (old.attributesAt site).isSome)
    (grows : Grows old.pool pool)
    (named : ∀ item ∈ attributes, (∃ text, pool.utf8 item.name = .ok text) ∨
      ∃ other ∈ old.attributeList site, other.name = item.name)
    (kept : site ≠ .wholeClass → ∀ item ∈ old.attributeList site,
      ∃ other ∈ attributes, other.name = item.name) :
    Advances old (withAttributesAt { old with pool := pool } site attributes) := by
  have there' : (attributesAt { old with pool := pool } site).isSome := by rwa [attributesAt_withPool]
  have own := attributeList_withAttributesAt_self there' attributes
  have others : ∀ other, other ≠ site →
      (withAttributesAt { old with pool := pool } site attributes).attributeList other =
        old.attributeList other := fun other different => by
    rw [attributeList_withAttributesAt_other different, attributeList_withPool]
  -- What is assumed is about this site, and the others have the attributes that they had.
  refine ⟨by rwa [withAttributesAt_pool], outline_withAttributesAt _ _ _, fun other item member => ?_,
    fun other outside item member => ?_⟩
  · rw [withAttributesAt_pool]
    by_cases same : other = site
    · subst same
      exact named item (own ▸ member)
    · exact .inr ⟨item, others other same ▸ member, rfl⟩
  · by_cases same : other = site
    · subst same
      rw [own]
      exact kept outside item member
    · exact ⟨item, (others other same).symm ▸ member, rfl⟩

end

/-! ## One attribute -/

/-- The attribute with the name at the site has the body, and all others are as they were. -/
structure Puts (site : Site) (name : String) (body : Bytes) (old new : ClassFile) : Prop where
  advances : Advances old new
  there : (new.bodyAt site name).isSome
  body : old.AlreadyNamed new.pool → new.bodyAt site name = some body
  others : old.AlreadyNamed new.pool → ∀ other called, ¬ (other = site ∧ called = name) →
    new.bodyAt other called = old.bodyAt other called

section

variable {old new : ClassFile} {pool : ConstantPool} {site : Site} {name : String} {body : Bytes}
  {attributes front back : List Attribute} {item : Attribute} {changed : Bool}

private theorem bodyAt_withAttributesAt (there : (old.attributesAt site).isSome) (called : String) :
    (withAttributesAt { old with pool := pool } site attributes).bodyAt site called =
      body? pool called attributes := by
  have there' : (attributesAt { old with pool := pool } site).isSome := by rwa [attributesAt_withPool]
  rw [bodyAt, withAttributesAt_pool, attributeList_withAttributesAt_self there']

private theorem bodyAt_other (grows : Grows old.pool pool) (already : old.AlreadyNamed pool) {other : Site}
    (different : other ≠ site) (called : String) :
    (withAttributesAt { old with pool := pool } site attributes).bodyAt other called =
      old.bodyAt other called := by
  rw [bodyAt, withAttributesAt_pool, attributeList_withAttributesAt_other different,
    attributeList_withPool]
  exact already.body?_eq grows.extends other called

private theorem puts_replaced (there : (old.attributesAt site).isSome)
    (first : First old.pool name (old.attributeList site) front item back) :
    Puts site name body old
      (old.withAttributesAt site (setBody front.length body (old.attributeList site))) := by
  have new : setBody front.length body (old.attributeList site) =
      front ++ { item with body := body } :: back := by rw [first.split, setBody_append]
  have reads : (old.withAttributesAt site (setBody front.length body (old.attributeList site))).bodyAt
      site name = some body :=
    (bodyAt_withAttributesAt there name).trans (first.withBody body).body?_eq
  -- Each attribute stands where it stood under the name it had. Only the body of one is another.
  refine ⟨?_, by rw [reads]; rfl, fun _ => reads, fun already other called different => ?_⟩
  · refine advances_withAttributesAt there .refl (fun other member => .inr ?_) fun _ other member => ?_
    · rw [new, List.mem_append, List.mem_cons] at member
      rw [first.split]
      rcases member with member | rfl | member
      · exact ⟨other, by simp [member], rfl⟩
      · exact ⟨item, by simp, rfl⟩
      · exact ⟨other, by simp [member], rfl⟩
    · rw [first.split, List.mem_append, List.mem_cons] at member
      rw [new]
      rcases member with member | rfl | member
      · exact ⟨other, by simp [member], rfl⟩
      · exact ⟨{ other with body := body }, by simp, rfl⟩
      · exact ⟨other, by simp [member], rfl⟩
  · by_cases same : other = site
    · subst same
      have different : called ≠ name := fun same => different ⟨rfl, same⟩
      exact (bodyAt_withAttributesAt there called).trans (first.body?_setBody different body)
    · exact bodyAt_other .refl (fun _ _ _ _ => id) same called

private theorem puts_appended {index : Index} (there : (old.attributesAt site).isSome)
    (absent : Absent old.pool name (old.attributeList site)) (grows : Grows old.pool pool)
    (named : pool.utf8 index = .ok name) :
    Puts site name body old (withAttributesAt { old with pool := pool } site
      (old.attributeList site ++ [⟨index, body⟩])) := by
  refine ⟨?_, ?_, fun already => ?_, fun already other called different => ?_⟩
  · refine advances_withAttributesAt there grows (fun item member => ?_) fun _ item member => ?_
    · rcases List.mem_append.mp member with member | member
      · exact .inr ⟨item, member, rfl⟩
      · obtain rfl := List.mem_singleton.mp member
        exact .inl ⟨name, named⟩
    · exact ⟨item, List.mem_append_left _ member, rfl⟩
  · rw [bodyAt_withAttributesAt there, body?, Option.isSome_map, List.find?_isSome]
    exact ⟨⟨index, body⟩, by simp, isNamed_iff.mpr named⟩
  · -- No attribute in front has got the name from the pool that grew.
    rw [withAttributesAt_pool] at already
    have absent' : Absent pool name (old.attributeList site) := fun item member read =>
      absent item member (already site item member name read)
    rw [bodyAt_withAttributesAt there]
    exact absent'.body?_append named
  · rw [withAttributesAt_pool] at already
    by_cases same : other = site
    · subst same
      have different : called ≠ name := fun same => different ⟨rfl, same⟩
      rw [bodyAt_withAttributesAt there, body?_append_other named different]
      exact already.body?_eq grows.extends other called
    · exact bodyAt_other grows already same called

theorem puts_of_put (there : (old.attributesAt site).isSome) (indexed : old.pool.Indexed)
    (gives : Gives (Injection.put site name body) old changed new) : Puts site name body old new := by
  rcases Injection.gives_put_iff.mp gives with ⟨same, -, rfl⟩ | ⟨-, -, puts⟩
  · exact ⟨.refl new, by rw [same]; rfl, fun _ => same, fun _ _ _ _ => rfl⟩
  · rcases (Injection.gives_putAttribute_iff there).mp puts with
      ⟨front, item, back, first, rfl⟩ | ⟨absent, index, pool, interned, rfl⟩
    · exact puts_replaced there first
    · exact puts_appended there absent (interned.moved (moves_utf8Index name))
        (utf8Index_reads indexed interned)

/-- With its name in the pool, an attribute can be put there and nothing is appended. -/
theorem exists_put {first : Index} (there : (old.attributesAt site).isSome)
    (known : old.pool.Known (utf8Index name) first) :
    ∃ changed new, Gives (Injection.put site name body) old changed new ∧ new.pool = old.pool := by
  by_cases same : old.bodyAt site name = some body
  · exact ⟨false, old, Injection.gives_put_iff.mpr (.inl ⟨same, rfl, rfl⟩), rfl⟩
  · rcases first_or_absent old.pool name (old.attributeList site) with ⟨front, item, back, found⟩ | absent
    · exact ⟨true, _, Injection.gives_put_iff.mpr (.inr ⟨same, rfl,
        (Injection.gives_putAttribute_iff there).mpr (.inl ⟨front, item, back, found, rfl⟩)⟩),
        withAttributesAt_pool _ _ _⟩
    · exact ⟨true, _, Injection.gives_put_iff.mpr (.inr ⟨same, rfl,
        (Injection.gives_putAttribute_iff there).mpr
          (.inr ⟨absent, first, old.pool, known _ .refl, rfl⟩)⟩), withAttributesAt_pool _ _ _⟩

end

/-! ## Settling -/

/-- What the class says there is what an edit may rely on: an attribute of a member, or what the class
itself has or does not have. -/
def ClassFile.Standing (file : ClassFile) (site : Site) (name : String) : Prop :=
  site = .wholeClass ∨ (file.bodyAt site name).isSome

/-- The edit can be done again and then appends nothing to the pool. It changes attributes at its own
places alone, and as long as these are as it left them, doing it again changes nothing. -/
structure Settles (edit : Injection Bool) (places : Site → String → Prop) (old new : ClassFile) :
    Prop where
  advances : Advances old new
  again : ∀ last, Advances new last → ∃ changed final,
    Gives edit last changed final ∧ final.pool = last.pool ∧ Advances last final
  others : old.AlreadyNamed new.pool → ∀ site name, ¬ places site name → old.Standing site name →
    new.bodyAt site name = old.bodyAt site name
  still : old.AlreadyNamed new.pool → ∀ last, Advances new last →
    (∀ site name, places site name → new.Standing site name →
      last.bodyAt site name = new.bodyAt site name) → Gives edit last false last

/-- One attribute at one site. -/
def Only (site : Site) (name : String) (other : Site) (called : String) : Prop :=
  other = site ∧ called = name

theorem Only.apart {site other place : Site} {name called text : String} (first : Only site name place text)
    (different : name ≠ called) : ¬ Only other called place text :=
  fun second => different (first.2.symm.trans second.2)

section

variable {edit edit' first second : Injection Bool} {places places' : Site → String → Prop}
  {old middle new : ClassFile} {site : Site} {name : String} {body : Bytes} {changed : Bool}

/-- What never changes anything from some class on. -/
theorem Settles.idle (idle : ∀ last, Advances new last → Gives edit last false last) :
    Settles edit places new new where
  advances := .refl new
  again last advances := ⟨false, last, idle last advances, rfl, .refl last⟩
  others _ _ _ _ _ := rfl
  still _ last advances _ := idle last advances

theorem Settles.mono (settles : Settles edit places old new)
    (more : ∀ site name, places site name → places' site name) : Settles edit places' old new where
  advances := settles.advances
  again := settles.again
  others already site name outside := settles.others already site name (outside ∘ more site name)
  still already last advances same := settles.still already last advances fun site name place =>
    same site name (more site name place)

/-- Another edit that does the same from then on. -/
theorem Settles.congr (settles : Settles edit' places old new)
    (same : ∀ last, Advances new last → ran edit last = ran edit' last) :
    Settles edit places old new where
  advances := settles.advances
  again last advances := by
    obtain ⟨changed, final, gives, rest⟩ := settles.again last advances
    exact ⟨changed, final, (same last advances).trans gives, rest⟩
  others := settles.others
  still already last advances rest :=
    (same last advances).trans (settles.still already last advances rest)

theorem Settles.afterPool (asked : InPool Grows old middle) (settles : Settles edit places middle new) :
    Settles edit places old new := by
  have advances := Advances.ofPool asked
  have named : old.AlreadyNamed new.pool → middle.AlreadyNamed new.pool :=
    advances.alreadyNamed settles.advances.pool
  refine ⟨advances.trans settles.advances, settles.again, fun already site name outside standing => ?_,
    fun already => settles.still (named already)⟩
  have same : middle.bodyAt site name = old.bodyAt site name := by
    rw [bodyAt, asked.attributeList_eq]
    exact (already.earlier settles.advances.pool.extends).body?_eq asked.pool.extends site name
  rw [← same]
  refine settles.others (named already) site name outside ?_
  rwa [Standing, same]

/-- Neither edit takes away what the other one put. -/
private theorem Settles.seq (early : Settles first places old middle) (late : Settles second places' middle new)
    (apart : ∀ site name, places site name → ¬ places' site name) :
    Settles (do let changed ← first; let others ← second; return changed || others)
      (fun site name => places site name ∨ places' site name) old new := by
  have runs : ∀ {last half final : ClassFile} {changed others : Bool}, Gives first last changed half →
      Gives second half others final →
      Gives (do let changed ← first; let others ← second; return changed || others) last
        (changed || others) final := fun given given' =>
    (gives_bind_iff _ _ _ _ _).mpr ⟨_, _, given, (gives_bind_iff _ _ _ _ _).mpr ⟨_, _, given',
      (gives_pure_iff _ _ _ _).mpr ⟨rfl, rfl⟩⟩⟩
  have named : old.AlreadyNamed new.pool →
      old.AlreadyNamed middle.pool ∧ middle.AlreadyNamed new.pool := fun already =>
    ⟨already.earlier late.advances.pool.extends,
      early.advances.alreadyNamed late.advances.pool already⟩
  refine ⟨early.advances.trans late.advances, fun last advances => ?_,
    fun already site name outside standing => ?_, fun already last advances same => ?_⟩
  · obtain ⟨changed, half, given, pool, advances'⟩ := early.again last (late.advances.trans advances)
    obtain ⟨others, final, given', pool', advances''⟩ := late.again half (advances.trans advances')
    exact ⟨_, final, runs given given', pool'.trans pool, advances'.trans advances''⟩
  · -- What the first edit left standing is still standing for the second.
    obtain ⟨outside, outside'⟩ := not_or.mp outside
    have kept := early.others (named already).1 site name outside standing
    rw [← kept]
    refine late.others (named already).2 site name outside' ?_
    rwa [Standing, kept]
  · -- The second edit left the places of the first as they were, so they are as the first left them.
    refine runs (early.still (named already).1 last (late.advances.trans advances) ?_)
      (late.still (named already).2 last advances fun site name place => same site name (.inr place))
    intro site name place standing
    have kept := late.others (named already).2 site name (apart site name place) standing
    rw [← kept]
    refine same site name (.inl place) ?_
    rwa [Standing, kept]

/-- What two edits do one after another. -/
theorem settles_seq
    (gives : Gives (do let changed ← first; let others ← second; return changed || others) old changed new)
    (early : ∀ {changed middle}, Gives first old changed middle → Settles first places old middle)
    (late : ∀ {middle changed}, Advances old middle → Gives second middle changed new →
      Settles second places' middle new)
    (apart : ∀ site name, places site name → ¬ places' site name) :
    Settles (do let changed ← first; let others ← second; return changed || others)
      (fun site name => places site name ∨ places' site name) old new := by
  simp only [gives_bind_iff, gives_pure_iff] at gives
  obtain ⟨_, middle, given, _, _, given', -, rfl⟩ := gives
  exact (early given).seq (late (early given).advances given') apart

theorem settles_put (there : (old.attributesAt site).isSome) (legible : old.Legible)
    (gives : Gives (Injection.put site name body) old changed new) :
    Settles (Injection.put site name body) (Only site name) old new := by
  have puts := puts_of_put there legible.indexed gives
  -- The name of the attribute is in the pool from now on.
  obtain ⟨item, -, named⟩ := isSome_bodyAt.mp puts.there
  obtain ⟨index, known⟩ := known_of_utf8 named
  refine ⟨puts.advances, fun last advances => ?_, fun already site name outside _ =>
    puts.others already site name outside, fun already last advances same => ?_⟩
  · have there' := (puts.advances.trans advances).isSome_attributesAt there
    have legible' := (puts.advances.trans advances).legible legible
    obtain ⟨changed, final, given, pool⟩ := exists_put there' (known.later advances.pool)
    exact ⟨changed, final, given, pool, (puts_of_put there' legible'.indexed given).advances⟩
  · refine Injection.gives_put_iff.mpr (.inl ⟨?_, rfl, rfl⟩)
    exact (same site name ⟨rfl, rfl⟩ (.inr puts.there)).trans (puts.body already)

private theorem gives_remove_iff :
    Gives (Injection.ofEdit (removeAttribute .wholeClass name)) old changed new ↔
      changed = ((Attribute.remove old.pool name old.attributes).length != old.attributes.length) ∧
        new = old.withAttributesAt .wholeClass (Attribute.remove old.pool name old.attributes) := by
  rw [Injection.gives_ofEdit_iff, Gives, Prod.ext_iff]
  simp only [removeAttribute, attributesAt, ran_bind, ran_get, ran_modify, ran_pure, Except.ok.injEq]
  rw [eq_comm, eq_comm (b := new)]

/-- Taken away, the attributes with a name stay away. -/
theorem settles_remove
    (gives : Gives (Injection.ofEdit (removeAttribute .wholeClass name)) old changed new) :
    Settles (Injection.ofEdit (removeAttribute .wholeClass name)) (Only .wholeClass name) old new := by
  have advances : ∀ file : ClassFile, Advances file
      (file.withAttributesAt .wholeClass (Attribute.remove file.pool name file.attributes)) := by
    intro file
    have there : (file.attributesAt .wholeClass).isSome := rfl
    exact advances_withAttributesAt there .refl
      (fun item member => .inr ⟨item, (List.mem_filter.mp member).1, rfl⟩) fun outside => absurd rfl outside
  obtain ⟨-, rfl⟩ := gives_remove_iff.mp gives
  refine ⟨advances old, fun last _ => ⟨_, _, gives_remove_iff.mpr ⟨rfl, rfl⟩, rfl, advances last⟩,
    fun _ site called outside _ => ?_, fun _ last _ same => ?_⟩
  · by_cases own : site = .wholeClass
    · subst own
      exact body?_remove_other fun same => outside ⟨rfl, same⟩
    · exact bodyAt_other .refl (fun _ _ _ _ => id) own called
  · -- Nobody has put the attribute back in the meantime, so there is nothing to take away.
    have none : last.bodyAt .wholeClass name = none :=
      (same .wholeClass name ⟨rfl, rfl⟩ (.inl rfl)).trans (absent_remove _ _ _).body?_eq
    have kept : Attribute.remove last.pool name last.attributes = last.attributes :=
      (absent_of_body? none).remove_eq
    refine gives_remove_iff.mpr ⟨?_, ?_⟩
    · rw [kept, bne_self_eq_false]
    · rw [kept]
      rfl

end

end JarRemap
