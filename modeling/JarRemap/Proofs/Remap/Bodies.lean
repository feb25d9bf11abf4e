import JarRemap.Proofs.ClassFile.Bodies
import JarRemap.Proofs.Remap

/-!
# Renaming in signatures and local variables

A signature, and each record of a table of local variables, refers to one text, and afterwards to the
new name of this text. The old text is the one that the slot held when everything began, since texts
stay where they are.
-/

namespace JarRemap.Remap

open ClassFile ConstantPool Attribute

/-! ## What is renamed -/

/-- The slot has the new name of the text that the old slot had, if it had one. -/
def TextRenamed (rename : String → Except Fault String) (old new : ConstantPool)
    (before after : Index) : Prop :=
  ∀ text, old.utf8 before = .ok text →
    ∃ renamed, rename text = .ok renamed ∧ new.utf8 after = .ok renamed

/-- The body refers to another signature. -/
def SignatureRenamed (symbols : SymbolMap) (old new : ConstantPool) (body changed : Bytes) : Prop :=
  ∃ index index', signature.parse signatureName body = .ok index ∧
    signature.parse signatureName changed = .ok index' ∧
    TextRenamed symbols.renameSignature old new index index'

/-- The record is the same but for the descriptor, or the signature, of its variable. -/
structure VariableRenamed (rename : String → Except Fault String) (old new : ConstantPool)
    (before after : LocalVariable) : Prop where
  start : after.start = before.start
  length : after.length = before.length
  name : after.name = before.name
  slot : after.slot = before.slot
  descriptor : TextRenamed rename old new before.descriptor after.descriptor

/-- What renames the texts in a nested attribute with the name. -/
def tableRename? (symbols : SymbolMap) (name : String) : Option (String → Except Fault String) :=
  if name = localVariableTableName then some symbols.renameDescriptor
  else if name = localVariableTypeTableName then some symbols.renameSignature
  else none

/-- Each record of the table is renamed. -/
def TableRenamed (rename : String → Except Fault String) (old new : ConstantPool)
    (body changed : Bytes) : Prop :=
  ∃ records records', localVariables.parse localVariableTableName body = .ok records ∧
    localVariables.parse localVariableTableName changed = .ok records' ∧
    List.Forall₂ (VariableRenamed rename old new) records records'

/-- A nested attribute has another body only if it is a table, and then it is one that is renamed. -/
structure NestedRenamed (symbols : SymbolMap) (old new : ConstantPool) (before after : Attribute) :
    Prop where
  turns : Turns new (fun name _ _ => IsTable name) before after
  table : ∀ name rename, old.utf8 before.name = .ok name → tableRename? symbols name = some rename →
    TableRenamed rename old new before.body after.body

/-- The code is the same but for tables of local variables, which are renamed. -/
def CodeRenamed (symbols : SymbolMap) (old new : ConstantPool) (body changed : Bytes) : Prop :=
  ∃ parts nested, code.parse codeName body = .ok parts ∧
    code.parse codeName changed = .ok { parts with attributes := nested } ∧
    List.Forall₂ (NestedRenamed symbols old new) parts.attributes nested

section

variable {symbols : SymbolMap} {rename : String → Except Fault String}
  {first old new last : ConstantPool}

theorem TextRenamed.widen {before after : Index} (renamed : TextRenamed rename old new before after)
    (earlier : Keeps first old) (later : Keeps new last) : TextRenamed rename first last before after :=
  fun text read => (renamed text (earlier.utf8 read)).imp fun _ => And.imp_right later.utf8

theorem SignatureRenamed.widen {body changed : Bytes}
    (renamed : SignatureRenamed symbols old new body changed) (earlier : Keeps first old)
    (later : Keeps new last) : SignatureRenamed symbols first last body changed := by
  obtain ⟨index, index', parsed, parsed', text⟩ := renamed
  exact ⟨index, index', parsed, parsed', text.widen earlier later⟩

theorem VariableRenamed.widen {before after : LocalVariable}
    (renamed : VariableRenamed rename old new before after) (earlier : Keeps first old)
    (later : Keeps new last) : VariableRenamed rename first last before after :=
  { renamed with descriptor := renamed.descriptor.widen earlier later }

theorem NestedRenamed.widen {before after : Attribute}
    (renamed : NestedRenamed symbols old new before after) (earlier : Keeps first old)
    (later : Keeps new last) : NestedRenamed symbols first last before after where
  turns := renamed.turns.mono later.utf8 fun _ => id
  table name change read chosen := by
    obtain ⟨records, records', parsed, parsed', rows⟩ :=
      renamed.table name change (earlier.utf8 read) chosen
    exact ⟨records, records', parsed, parsed', rows.imp fun _ _ row => row.widen earlier later⟩

theorem CodeRenamed.widen {body changed : Bytes} (renamed : CodeRenamed symbols old new body changed)
    (earlier : Keeps first old) (later : Keeps new last) :
    CodeRenamed symbols first last body changed := by
  obtain ⟨parts, nested, parsed, parsed', items⟩ := renamed
  exact ⟨parts, nested, parsed, parsed', items.imp fun _ _ item => item.widen earlier later⟩

theorem CodeRenamed.onlyTables {body changed : Bytes}
    (renamed : CodeRenamed symbols old new body changed) : OnlyTables new body changed := by
  obtain ⟨parts, nested, parsed, parsed', items⟩ := renamed
  exact ⟨parts, _, parsed, parsed', rfl, rfl, rfl, rfl, items.imp fun _ _ item => item.turns⟩

end

/-! ## What the steps do -/

section

variable {symbols : SymbolMap} {rename : String → Except Fault String} {before after : ConstantPool}

theorem renameText_gives {index : Index} {found : Option Index} (indexed : before.Indexed)
    (gives : Gives (renameText rename index) before found after) :
    TextRenamed rename before after index (found.getD index) := by
  simp only [renameText, gives_bind_iff, gives_get_iff, gives_lift_iff] at gives
  obtain ⟨_, _, ⟨rfl, rfl⟩, old, _, ⟨read, rfl⟩, new, _, ⟨renamed, rfl⟩, gives⟩ := gives
  intro text read'
  obtain rfl := Except.ok.inj (read.symm.trans read')
  refine ⟨new, renamed, ?_⟩
  split at gives
  next same =>
    obtain ⟨rfl, rfl⟩ := (gives_pure_iff _ _ _ _).mp gives
    rw [same]
    exact read
  · obtain ⟨place, _, interned, done⟩ := (gives_bind_iff _ _ _ _ _).mp gives
    obtain ⟨rfl, rfl⟩ := (gives_pure_iff _ _ _ _).mp done
    exact utf8Index_reads indexed interned

theorem renameVariable_gives {record : LocalVariable} {result : LocalVariable × Bool}
    (indexed : before.Indexed) (gives : Gives (renameVariable rename record) before result after) :
    VariableRenamed rename before after record result.1 ∧ (result.2 = false → result.1 = record) := by
  obtain ⟨found, middle, renames, gives⟩ := (gives_bind_iff _ _ _ _ _).mp gives
  have text := renameText_gives indexed renames
  cases found with
  | none =>
    obtain ⟨rfl, rfl⟩ := (gives_pure_iff _ _ _ _).mp gives
    exact ⟨⟨rfl, rfl, rfl, rfl, text⟩, fun _ => rfl⟩
  | some index =>
    obtain ⟨rfl, rfl⟩ := (gives_pure_iff _ _ _ _).mp gives
    exact ⟨⟨rfl, rfl, rfl, rfl, text⟩, fun same => by cases same⟩

/-- If no item says that it changed, the results are the items. -/
private theorem unchanged_results {α : Type} {holds : α → α → Prop} {items : List α}
    {results : List (α × Bool)}
    (pairs : List.Forall₂ (fun item (result : α × Bool) =>
      holds item result.1 ∧ (result.2 = false → result.1 = item)) items results) :
    List.Forall₂ holds items (results.map Prod.fst) ∧
      (results.any Prod.snd = false → results.map Prod.fst = items) := by
  induction pairs with
  | nil => exact ⟨.nil, fun _ => rfl⟩
  | cons head _ ih =>
    refine ⟨.cons head.1 ih.1, fun none => ?_⟩
    rw [List.any_cons, Bool.or_eq_false_iff] at none
    rw [List.map_cons, head.2 none.1, ih.2 none.2]

theorem renameTable_gives {item : Attribute} {result : Attribute × Bool} (indexed : before.Indexed)
    (gives : Gives (renameTable rename item) before result after) :
    TableRenamed rename before after item.body result.1.body ∧ result.1.name = item.name ∧
      (result.2 = false → result.1 = item) := by
  simp only [renameTable, gives_bind_iff, gives_lift_iff] at gives
  obtain ⟨records, before, ⟨parsed, rfl⟩, renamed, middle, renames, gives⟩ := gives
  -- Slots that later records ask for stand behind those of earlier ones, which keep their texts.
  have rows := gives_mapM Extends (fun record result pool =>
      VariableRenamed rename before pool record result.1 ∧ (result.2 = false → result.1 = record))
    (fun record => asks_renameVariable rename record Extends)
    (fun grown => And.imp_left fun row => row.widen (refl before) grown.keeps)
    (fun reached step => (renameVariable_gives (reached.indexed indexed) step).imp_left fun row =>
      row.widen reached.keeps (refl _)) renames
  obtain ⟨rows, unchanged⟩ := unchanged_results rows
  split at gives
  · simp only [gives_bind_iff, gives_lift_iff, gives_pure_iff] at gives
    obtain ⟨body, _, ⟨encoded, rfl⟩, rfl, rfl⟩ := gives
    exact ⟨⟨records, _, parsed, (localVariables_exact.parse_ok_iff _ _ _).mpr encoded, rows⟩, rfl,
      fun same => by cases same⟩
  next none =>
    obtain ⟨rfl, rfl⟩ := (gives_pure_iff _ _ _ _).mp gives
    rw [unchanged (by simpa using none)] at rows
    exact ⟨⟨records, records, parsed, parsed, rows⟩, rfl, fun _ => rfl⟩

theorem renameNested_gives {item : Attribute} {result : Attribute × Bool} (indexed : before.Indexed)
    (gives : Gives (renameNested symbols item) before result after) :
    NestedRenamed symbols before after item result.1 ∧ (result.2 = false → result.1 = item) := by
  have grown : Extends before after := gives.moved (asks_renameNested symbols item Extends)
  simp only [renameNested, gives_bind_iff, gives_get_iff, gives_lift_iff] at gives
  obtain ⟨_, _, ⟨rfl, rfl⟩, name, before, ⟨read, rfl⟩, gives⟩ := gives
  -- The rename that is chosen by the name is the one that the table is renamed with.
  have table : ∀ {rename}, tableRename? symbols name = some rename → IsTable name →
      Gives (renameTable rename item) before result after →
        NestedRenamed symbols before after item result.1 ∧
        (result.2 = false → result.1 = item) := by
    intro rename chosen isTable renames
    obtain ⟨renamed, named, unchanged⟩ := renameTable_gives indexed renames
    refine ⟨⟨⟨named, .inr ⟨name, grown.utf8 read, isTable⟩⟩, fun other change read' chosen' => ?_⟩,
      unchanged⟩
    obtain rfl := Except.ok.inj (read.symm.trans read')
    obtain rfl := Option.some.inj (chosen.symm.trans chosen')
    exact renamed
  split at gives
  next isTable => exact table (by rw [tableRename?, if_pos isTable]) (.inl isTable) gives
  next other =>
    split at gives
    next isTable =>
      exact table (by rw [tableRename?, if_neg other, if_pos isTable]) (.inr isTable) gives
    next neither =>
      obtain ⟨rfl, rfl⟩ := (gives_pure_iff _ _ _ _).mp gives
      refine ⟨⟨.refl item, fun text change read' chosen => ?_⟩, fun _ => rfl⟩
      obtain rfl := Except.ok.inj (read.symm.trans read')
      rw [tableRename?, if_neg other, if_neg neither] at chosen
      cases chosen

end

/-! ## One site -/

/-- All that a step can do which looks at the first attribute with the name: nothing if there is none,
and otherwise it may give it another body. -/
inductive Reworks (site : Site) (name : String)
    (step : ConstantPool → Bytes → Option Bytes → ConstantPool → Prop) (before : ClassFile) :
    Bool → ClassFile → Prop
  | absent (absent : Absent before.pool name (before.attributeList site)) :
      Reworks site name step before false before
  | kept {pool : ConstantPool} {front back : List Attribute} {item : Attribute}
      (first : First before.pool name (before.attributeList site) front item back)
      (worked : step before.pool item.body none pool) :
      Reworks site name step before false { before with pool := pool }
  | changed {pool : ConstantPool} {front back : List Attribute} {item : Attribute} {body : Bytes}
      (first : First before.pool name (before.attributeList site) front item back)
      (worked : step before.pool item.body (some body) pool) :
      Reworks site name step before true (withAttributesAt { before with pool := pool } site
        (front ++ { item with body := body } :: back))

section

variable {site : Site} {name : String}
  {step : ConstantPool → Bytes → Option Bytes → ConstantPool → Prop} {before after : ClassFile}
  {changed : Bool}

theorem Reworks.rewrites {work : ConstantPool → ConstantPool → Bytes → Bytes → Prop}
    (reworks : Reworks site name step before changed after)
    (does : ∀ {body new pool}, step before.pool body new pool →
      Extends before.pool pool ∧ SameTexts before.pool pool ∧
        work before.pool pool body (new.getD body)) :
    Rewrites site name work before after := by
  cases reworks with
  | absent absent => exact .absent absent
  | kept first worked =>
    obtain ⟨grown, texts, worked⟩ := does worked
    exact .kept first grown texts worked
  | changed first worked =>
    obtain ⟨grown, texts, worked⟩ := does worked
    exact .first first grown texts worked

/-- A step that leaves the pool alone where it keeps the body, and else gives another one, says truly
whether it changed anything. -/
theorem Reworks.truthful (reworks : Reworks site name step before changed after)
    (keeps : ∀ {body pool}, step before.pool body none pool → pool = before.pool)
    (turns : ∀ {body new pool}, step before.pool body (some new) pool →
      Extends before.pool pool ∧ SameTexts before.pool pool ∧ new ≠ body) :
    (changed = false → after = before) ∧ (changed = true → ∃ body,
      after.bodyAt site name = some body ∧ before.bodyAt site name ≠ some body) := by
  cases reworks with
  | absent absent => exact ⟨fun _ => rfl, fun same => by cases same⟩
  | kept first worked =>
    refine ⟨fun _ => ?_, fun same => by cases same⟩
    rw [keeps worked]
  | changed first worked =>
    refine ⟨fun same => (by cases same), fun _ => ?_⟩
    obtain ⟨grown, texts, differs⟩ := turns worked
    have rewrites : Rewrites site name (fun _ _ body new => new ≠ body) before _ :=
      .first first grown texts differs
    obtain ⟨new, differs, there⟩ := rewrites.bodyAt first.body?_eq
    refine ⟨new, there, fun same => differs ?_⟩
    exact Option.some.inj (same.symm.trans first.body?_eq)

end

/-- The text that the signature refers to is looked at, and the signature refers to another slot if the
text gets another name. -/
def SignatureStep (symbols : SymbolMap) (before : ConstantPool) (body : Bytes) (new : Option Bytes)
    (after : ConstantPool) : Prop :=
  ∃ index found, signature.parse signatureName body = .ok index ∧
    Gives (renameText symbols.renameSignature index) before found after ∧
    Option.Rel (fun slot body => signature.encode slot = .ok body) found new

/-- The nested attributes are renamed one after another, and the code is written anew if one of them is
another one then. -/
def LocalsStep (symbols : SymbolMap) (before : ConstantPool) (body : Bytes) (new : Option Bytes)
    (after : ConstantPool) : Prop :=
  ∃ parts renamed, code.parse codeName body = .ok parts ∧
    Gives (parts.attributes.mapM (renameNested symbols)) before renamed after ∧
    renamed.any Prod.snd = new.isSome ∧
    ∀ body, new = some body →
      code.encode { parts with attributes := renamed.map Prod.fst } = .ok body

section

variable {symbols : SymbolMap} {site : Site} {before after : ClassFile} {changed : Bool}

theorem renameSignature_reworks (gives : Gives (renameSignature symbols site) before changed after) :
    Reworks site signatureName (SignatureStep symbols) before changed after := by
  simp only [renameSignature, gives_bind_iff, gives_get_iff] at gives
  obtain ⟨_, before, ⟨rfl, rfl⟩, gives⟩ := gives
  rcases first_or_absent before.pool signatureName (before.attributeList site) with
    ⟨front, item, back, first⟩ | absent
  · rw [← attributeList, first.position?_eq, first.body?_eq] at gives
    simp only [gives_bind_iff, gives_lift_iff, gives_inPool_iff] at gives
    obtain ⟨index, _, ⟨parsed, rfl⟩, found, _, ⟨pool, renames, rfl⟩, gives⟩ := gives
    cases found with
    | none =>
      obtain ⟨rfl, rfl⟩ := (gives_pure_iff _ _ _ _).mp gives
      exact .kept first ⟨index, none, parsed, renames, .none⟩
    | some new =>
      simp only [gives_bind_iff, gives_lift_iff, gives_modify_iff, gives_pure_iff] at gives
      obtain ⟨body, _, ⟨encoded, rfl⟩, _, _, rfl, rfl, rfl⟩ := gives
      rw [first.split, setBody_append]
      exact .changed first ⟨index, some new, parsed, renames, .some encoded⟩
  · rw [← attributeList, absent.position?_eq, absent.body?_eq] at gives
    obtain ⟨rfl, rfl⟩ := (gives_pure_iff _ _ _ _).mp gives
    exact .absent absent

theorem renameLocals_reworks (gives : Gives (renameLocals symbols site) before changed after) :
    Reworks site codeName (LocalsStep symbols) before changed after := by
  simp only [renameLocals, gives_bind_iff, gives_get_iff] at gives
  obtain ⟨_, before, ⟨rfl, rfl⟩, gives⟩ := gives
  rcases first_or_absent before.pool codeName (before.attributeList site) with
    ⟨front, item, back, first⟩ | absent
  · rw [← attributeList, first.position?_eq, first.body?_eq] at gives
    simp only [gives_bind_iff, gives_lift_iff, gives_inPool_iff] at gives
    obtain ⟨parts, before, ⟨parsed, rfl⟩, renamed, _, ⟨pool, renames, rfl⟩, gives⟩ := gives
    split at gives
    next some_ =>
      simp only [gives_bind_iff, gives_lift_iff, gives_modify_iff, gives_pure_iff] at gives
      obtain ⟨body, _, ⟨encoded, rfl⟩, _, _, rfl, rfl, rfl⟩ := gives
      rw [first.split, setBody_append]
      refine .changed first ⟨parts, renamed, parsed, renames, some_, fun other same => ?_⟩
      exact Option.some.inj same ▸ encoded
    next none_ =>
      obtain ⟨rfl, rfl⟩ := (gives_pure_iff _ _ _ _).mp gives
      exact .kept first ⟨parts, renamed, parsed, renames, by simpa using none_,
        fun other same => absurd same.symm (Option.some_ne_none other)⟩
  · rw [← attributeList, absent.position?_eq, absent.body?_eq] at gives
    obtain ⟨rfl, rfl⟩ := (gives_pure_iff _ _ _ _).mp gives
    exact .absent absent

/-- Slots that are asked for stand behind those that were there. -/
theorem LocalsStep.moved {pool new : ConstantPool} {body : Bytes} {changed : Option Bytes}
    (worked : LocalsStep symbols pool body changed new) (related : ConstantPool → ConstantPool → Prop)
    [Asking related] : related pool new := by
  obtain ⟨parts, renamed, -, renames, -⟩ := worked
  exact renames.moved (moves_mapM (fun item => asks_renameNested symbols item related) _)

/-- The first signature at the site refers to the new name. -/
theorem renameSignature_rewrites (indexed : before.pool.Indexed)
    (gives : Gives (renameSignature symbols site) before changed after) :
    Rewrites site signatureName (SignatureRenamed symbols) before after := by
  refine (renameSignature_reworks gives).rewrites ?_
  rintro body new pool ⟨index, found, parsed, renames, encoded⟩
  have text := renameText_gives indexed renames
  refine ⟨renames.moved (asks_renameText _ index Extends),
    renames.moved (asks_renameText _ index SameTexts), ?_⟩
  cases encoded with
  | none => exact ⟨index, index, parsed, parsed, text⟩
  | some encoded => exact ⟨index, _, parsed, (signature_exact.parse_ok_iff _ _ _).mpr encoded, text⟩

/-- The records of the tables in the first code at the site refer to the new names. -/
theorem renameLocals_rewrites (indexed : before.pool.Indexed)
    (gives : Gives (renameLocals symbols site) before changed after) :
    Rewrites site codeName (CodeRenamed symbols) before after := by
  refine (renameLocals_reworks gives).rewrites fun {body new pool} worked => ?_
  refine ⟨worked.moved Extends, worked.moved SameTexts, ?_⟩
  obtain ⟨parts, renamed, parsed, renames, some_, encoded⟩ := worked
  -- The pool grows while the attributes are renamed, and what was read of it before stays true.
  have nested := gives_mapM Extends (fun item result pool =>
      NestedRenamed symbols before.pool pool item result.1 ∧ (result.2 = false → result.1 = item))
    (fun item => asks_renameNested symbols item Extends)
    (fun grown => And.imp_left fun item => item.widen (refl before.pool) grown.keeps)
    (fun reached step => (renameNested_gives (reached.indexed indexed) step).imp_left fun item =>
      item.widen reached.keeps (refl _)) renames
  obtain ⟨nested, unchanged⟩ := unchanged_results nested
  cases new with
  | none =>
    rw [unchanged some_] at nested
    exact ⟨parts, _, parsed, parsed, nested⟩
  | some changed => exact ⟨parts, _, parsed, code_nested parsed (encoded changed rfl), nested⟩

end

end JarRemap.Remap
