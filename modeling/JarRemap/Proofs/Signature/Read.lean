import JarRemap.Signature.Read
import Mathlib.Data.List.Chain
import Mathlib.Data.List.TakeDrop

/-!
# Signatures are read as they are written

The names in a signature end where the next sign begins, so whatever is written for a signature is
read as that signature. Only a bound that says nothing is taken for one that does if what follows it
looks like a type.
-/

namespace JarRemap.Signature

/-! ## Texts without what follows -/

def Reference.spelled (type : Reference) : List Char := type.text []

def Segment.spelled (segment : Segment) : List Char := segment.text []

def Argument.spelled (argument : Argument) : List Char := argument.text []

mutual

theorem Reference.text_eq (type : Reference) (rest : List Char) :
    type.text rest = type.text [] ++ rest := by
  match type with
  | .variable name => simp [Reference.text]
  | .simpleArray element => simp [Reference.text]
  | .array element =>
    rw [Reference.text, Reference.text, element.text_eq rest]
    rfl
  | .object head nested =>
    rw [Reference.text, Reference.text, segmentsText_eq nested (';' :: rest),
      segmentsText_eq nested [';'], head.text_eq, head.text_eq (_ ++ [';'])]
    simp

theorem Segment.text_eq (segment : Segment) (rest : List Char) :
    segment.text rest = segment.text [] ++ rest := by
  match segment with
  | .plain name => simp [Segment.text]
  | .generic name arguments =>
    rw [Segment.text, Segment.text, argumentsText_eq arguments ('>' :: rest),
      argumentsText_eq arguments ['>']]
    simp

theorem segmentsText_eq (segments : List Segment) (rest : List Char) :
    segmentsText rest segments = (segments.flatMap fun segment => '.' :: segment.text []) ++ rest := by
  match segments with
  | [] => rfl
  | segment :: others =>
    rw [segmentsText, segmentsText_eq others rest, segment.text_eq]
    simp

theorem Argument.text_eq (argument : Argument) (rest : List Char) :
    argument.text rest = argument.text [] ++ rest := by
  match argument with
  | .any => rfl
  | .exact type => exact type.text_eq rest
  | .bounded wildcard type =>
    rw [Argument.text, Argument.text, type.text_eq rest]
    rfl

theorem argumentsText_eq (arguments : List Argument) (rest : List Char) :
    argumentsText rest arguments = (arguments.flatMap fun argument => argument.text []) ++ rest := by
  match arguments with
  | [] => rfl
  | argument :: others =>
    rw [argumentsText, argumentsText_eq others rest, argument.text_eq]
    simp

end

theorem Reference.spelled_object (head : Segment) (nested : List Segment) (rest : List Char) :
    (Reference.object head nested).spelled ++ rest =
      'L' :: (head.spelled ++ (nested.flatMap (fun segment => '.' :: segment.spelled) ++ ';' :: rest)) := by
  rw [Reference.spelled, Reference.text, segmentsText_eq, head.text_eq]
  simp [Segment.spelled]

theorem Segment.spelled_generic (name : List Char) (arguments : List Argument) (rest : List Char) :
    (Segment.generic name arguments).spelled ++ rest =
      name ++ '<' :: (arguments.flatMap Argument.spelled ++ '>' :: rest) := by
  rw [Segment.spelled, Segment.text, argumentsText_eq]
  simp only [List.append_assoc, List.cons_append, List.nil_append]
  rfl

/-! ## Names -/

/-- A name as it is written in a signature: that of a type variable, or that of a class with those of
the classes that are nested in it. -/
inductive Name
  | typeVariable (name : List Char)
  | classType (top : List Char) (nested : List (List Char))

/-- A name is not empty, and it ends where one of the signs follows. -/
def EndsBefore (signs name : List Char) : Prop := name ≠ [] ∧ ∀ c ∈ name, c ∉ signs

def classSigns : List Char := ['<', '.', ';']

def Name.Proper : Name → Prop
  | typeVariable name => EndsBefore [';'] name
  | classType top nested => EndsBefore classSigns top ∧ ∀ simple ∈ nested, EndsBefore classSigns simple

instance (signs name : List Char) : Decidable (EndsBefore signs name) :=
  @instDecidableAnd _ _ _ (List.decidableBAll (· ∉ signs) name)

instance : (name : Name) → Decidable name.Proper
  | .typeVariable name => inferInstanceAs (Decidable (EndsBefore [';'] name))
  | .classType _ _ => inferInstanceAs (Decidable (_ ∧ _))

def Segment.name : Segment → List Char
  | plain name => name
  | generic name _ => name

mutual

/-- The names in a type, in the order in which they are written. -/
def Reference.names : Reference → List Name
  | .variable name => [.typeVariable name]
  | .simpleArray _ => []
  | .array element => element.names
  | .object head nested =>
    .classType head.name (nested.map Segment.name) :: (head.names ++ segmentsNames nested)

/-- The names in the type arguments. -/
def Segment.names : Segment → List Name
  | .plain _ => []
  | .generic _ arguments => argumentsNames arguments

def segmentsNames : List Segment → List Name
  | [] => []
  | segment :: others => segment.names ++ segmentsNames others

def Argument.names : Argument → List Name
  | .any => []
  | .exact type => type.names
  | .bounded _ type => type.names

def argumentsNames : List Argument → List Name
  | [] => []
  | argument :: others => argument.names ++ argumentsNames others

end

theorem mem_segmentsNames {segments : List Segment} {segment : Segment} (member : segment ∈ segments)
    {name : Name} (here : name ∈ segment.names) : name ∈ segmentsNames segments := by
  induction segments with
  | nil => cases member
  | cons first others ih =>
    rw [segmentsNames, List.mem_append]
    obtain rfl | member := List.mem_cons.mp member
    · exact .inl here
    · exact .inr (ih member)

theorem mem_argumentsNames {arguments : List Argument} {argument : Argument}
    (member : argument ∈ arguments) {name : Name} (here : name ∈ argument.names) :
    name ∈ argumentsNames arguments := by
  induction arguments with
  | nil => cases member
  | cons first others ih =>
    rw [argumentsNames, List.mem_append]
    obtain rfl | member := List.mem_cons.mp member
    · exact .inl here
    · exact .inr (ih member)

/-! ## Lengths -/

theorem length_le_flatMap {α : Type} (write : α → List Char) {items : List α} {item : α}
    (member : item ∈ items) : (write item).length ≤ (items.flatMap write).length := by
  obtain ⟨front, back, rfl⟩ := List.append_of_mem member
  simp only [List.flatMap_append, List.flatMap_cons, List.length_append]
  omega

theorem length_items_le {α : Type} (write : α → List Char) (items : List α)
    (given : ∀ item ∈ items, write item ≠ []) : items.length ≤ (items.flatMap write).length := by
  induction items with
  | nil => exact Nat.le_refl _
  | cons item items ih =>
    rw [List.forall_mem_cons] at given
    have first := List.length_pos_iff.mpr given.1
    have others := ih given.2
    rw [List.flatMap_cons, List.length_append, List.length_cons]
    omega

/-! ## Steps of a scan -/

namespace Scan

variable {α β : Type} {source rest : List Char}

theorem bind_of {scan : Scan α} {value : α} (found : scan source = .ok (value, rest))
    (next : α → Scan β) : (scan >>= next) source = next value rest := by
  change (scan source >>= fun result => next result.1 result.2) = _
  rw [found]
  rfl

theorem expect_cons (c : Char) (rest : List Char) : expect c (c :: rest) = .ok ((), rest) :=
  if_pos rfl

theorem next?_eq (source : List Char) : next? source = .ok (source.head?, source) := rfl

theorem name_append {signs found : List Char} (ends : EndsBefore signs found) {c : Char}
    (sign : c ∈ signs) (rest : List Char) :
    name signs (found ++ c :: rest) = .ok (found, c :: rest) := by
  obtain ⟨given, inside⟩ := ends
  have parts : (found ++ c :: rest).span (!signs.contains ·) = (found, c :: rest) := by
    rw [List.span_eq_takeWhile_dropWhile, List.takeWhile_append_of_pos, List.dropWhile_append_of_pos]
    · simp [sign]
    · simpa using inside
    · simpa using inside
  rw [name, parts]
  cases found with
  | nil => exact absurd rfl given
  | cons first found => rfl

/-- A scan for items takes them one by one, in whatever text the others and the rest follow. -/
theorem whileOnto_takes (goesOn : Option Char → Bool) {scan : Scan α} (write : α → List Char)
    {items : List α} (found : List α) {rounds : Nat}
    (goes : ∀ item ∈ items, ∀ behind, goesOn (write item ++ behind).head? = true)
    (takes : ∀ item later, item :: later <:+ items →
      scan (write item ++ (later.flatMap write ++ rest)) = .ok (item, later.flatMap write ++ rest))
    (stops : goesOn rest.head? = false) (enough : items.length ≤ rounds) :
    whileOnto goesOn scan found rounds (items.flatMap write ++ rest) =
      .ok (found.reverse ++ items, rest) := by
  -- What is found is only added to, so the induction needs it for any text found before.
  induction items generalizing found rounds with
  | nil =>
    cases rounds with
    | zero => rw [List.append_nil]; rfl
    | succ rounds =>
      rw [whileOnto, List.flatMap_nil, List.nil_append, bind_of (next?_eq rest)]
      simp only [stops, List.append_nil]
      rfl
  | cons item items ih =>
    obtain _ | rounds := rounds
    · simp at enough
    rw [List.forall_mem_cons] at goes
    have taken := takes item items List.suffix_rfl
    rw [whileOnto, List.flatMap_cons, List.append_assoc, bind_of (next?_eq _), goes.1, if_pos rfl,
      bind_of taken, ih _ goes.2 (fun other later part => takes other later
        (part.trans (List.suffix_cons item items))) (Nat.le_of_succ_le_succ enough)]
    rw [List.reverse_cons, List.append_assoc]
    rfl

theorem upTo_takes {stop : Char} {scan : Scan α} {write : α → List Char} {items : List α}
    {rounds : Nat} (goes : ∀ item ∈ items, ∀ behind, (write item ++ behind).head? ≠ some stop)
    (takes : ∀ item later, item :: later <:+ items →
      scan (write item ++ (later.flatMap write ++ stop :: rest)) =
        .ok (item, later.flatMap write ++ stop :: rest))
    (enough : items.length ≤ rounds) :
    upTo stop scan rounds (items.flatMap write ++ stop :: rest) = .ok (items, rest) := by
  have found := whileOnto_takes (· != some stop) write []
    (fun item member behind => by simpa using goes item member behind) takes (by simp) enough
  rw [upTo, bind_of found, bind_of (expect_cons stop rest)]
  rfl

theorem behind_takes {mark : Char} {scan : Scan α} {write : α → List Char} {items : List α}
    {rounds : Nat}
    (takes : ∀ item later, item :: later <:+ items →
      scan (write item ++ (later.flatMap (mark :: write ·) ++ rest)) =
        .ok (item, later.flatMap (mark :: write ·) ++ rest))
    (stops : rest.head? ≠ some mark) (enough : items.length ≤ rounds) :
    behind mark scan rounds (items.flatMap (mark :: write ·) ++ rest) = .ok (items, rest) := by
  refine whileOnto_takes _ (mark :: write ·) [] (fun _ _ _ => beq_self_eq_true _)
    (fun item later part => ?_) (by simpa using stops) enough
  rw [List.cons_append, bind_of (expect_cons mark _)]
  exact takes item later part

theorem toEnd_takes {scan : Scan α} {write : α → List Char} {items : List α} {rounds : Nat}
    (goes : ∀ item ∈ items, write item ≠ [])
    (takes : ∀ item later, item :: later <:+ items →
      scan (write item ++ later.flatMap write) = .ok (item, later.flatMap write))
    (enough : items.length ≤ rounds) :
    toEnd scan rounds (items.flatMap write) = .ok (items, []) := by
  have found : whileOnto Option.isSome scan [] rounds (items.flatMap write ++ []) = .ok (items, []) :=
    whileOnto_takes _ write [] (fun item member behind => ?_) (fun item later part => ?_) rfl enough
  · rwa [List.append_nil] at found
  · cases text : write item with
    | nil => exact absurd text (goes item member)
    | cons c text => rfl
  · rw [List.append_nil]
    exact takes item later part

/-- Items that are read whatever follows them. Their text is long enough to allow a round for each. -/
theorem upTo_reads {stop : Char} {scan : Scan α} {write : α → List Char} {items : List α}
    {rounds : Nat} (starts : ∀ item ∈ items, ∃ c text, write item = c :: text ∧ c ≠ stop)
    (reads : ∀ item ∈ items, (write item).length ≤ (items.flatMap write).length →
      ∀ rest, scan (write item ++ rest) = .ok (item, rest))
    (enough : (items.flatMap write).length ≤ rounds) (rest : List Char) :
    upTo stop scan rounds (items.flatMap write ++ stop :: rest) = .ok (items, rest) := by
  refine upTo_takes (fun item member behind => ?_) (fun item later part => ?_) ?_
  · obtain ⟨c, text, spelled, other⟩ := starts item member
    rw [spelled]
    exact fun same => other (Option.some.inj same)
  · have member := part.subset List.mem_cons_self
    exact reads item member (length_le_flatMap write member) _
  · refine Nat.le_trans (length_items_le write items fun item member => ?_) enough
    obtain ⟨c, text, spelled, -⟩ := starts item member
    simp [spelled]

theorem behind_reads {mark : Char} {scan : Scan α} {write : α → List Char} {items : List α}
    {rounds : Nat}
    (reads : ∀ item ∈ items, (write item).length ≤ (items.flatMap (mark :: write ·)).length →
      ∀ rest, scan (write item ++ rest) = .ok (item, rest))
    (enough : (items.flatMap (mark :: write ·)).length ≤ rounds) {rest : List Char}
    (stops : rest.head? ≠ some mark) :
    behind mark scan rounds (items.flatMap (mark :: write ·) ++ rest) = .ok (items, rest) := by
  refine behind_takes (fun item later part => ?_) stops ?_
  · have member := part.subset List.mem_cons_self
    have shorter := length_le_flatMap (mark :: write ·) member
    exact reads item member (Nat.le_of_succ_le shorter) _
  · exact Nat.le_trans (length_items_le (mark :: write ·) items (by simp)) enough

theorem toEnd_reads {scan : Scan α} {write : α → List Char} {items : List α} {rounds : Nat}
    (given : ∀ item ∈ items, write item ≠ [])
    (reads : ∀ item ∈ items, (write item).length ≤ (items.flatMap write).length →
      ∀ rest, scan (write item ++ rest) = .ok (item, rest))
    (enough : (items.flatMap write).length ≤ rounds) :
    toEnd scan rounds (items.flatMap write) = .ok (items, []) := by
  refine toEnd_takes given (fun item later part => ?_)
    (Nat.le_trans (length_items_le write items given) enough)
  have member := part.subset List.mem_cons_self
  exact reads item member (length_le_flatMap write member) _

end Scan

/-! ## Types -/

/-- The characters that a type begins with. -/
def typeSigns : List Char := ['L', 'T', '[']

theorem Reference.spelled_head (type : Reference) : ∃ c ∈ typeSigns, ∃ rest, type.spelled = c :: rest := by
  match type with
  | .variable _ => exact ⟨'T', by decide, _, rfl⟩
  | .simpleArray _ => exact ⟨'[', by decide, _, rfl⟩
  | .array _ => exact ⟨'[', by decide, _, rfl⟩
  | .object _ _ => exact ⟨'L', by decide, _, rfl⟩

theorem Argument.spelled_head (argument : Argument) :
    ∃ c ∈ ['*', '+', '-'] ++ typeSigns, ∃ rest, argument.spelled = c :: rest := by
  match argument with
  | .any => exact ⟨'*', by decide, _, rfl⟩
  | .bounded .extending _ => exact ⟨'+', by decide, _, rfl⟩
  | .bounded .super _ => exact ⟨'-', by decide, _, rfl⟩
  | .exact type =>
    obtain ⟨c, sign, rest, text⟩ := type.spelled_head
    exact ⟨c, List.mem_append_right _ sign, rest, text⟩

theorem Reference.spelled_ne_nil (type : Reference) : type.spelled ≠ [] := by
  obtain ⟨c, -, text, spelled⟩ := type.spelled_head
  simp [spelled]

/-- No type begins with another sign. -/
theorem Reference.head?_spelled (type : Reference) {c : Char} (other : c ∉ typeSigns)
    (rest : List Char) : (type.spelled ++ rest).head? ≠ some c := by
  obtain ⟨d, sign, text, spelled⟩ := type.spelled_head
  rw [spelled]
  rintro same
  obtain rfl := Option.some.inj same
  exact other sign

/-- No type without parts begins like a type with parts. -/
theorem simple?_typeSigns {c : Char} (sign : c ∈ typeSigns) : simple? c = none := by
  have none_ : typeSigns.map simple? = typeSigns.map fun _ => none := rfl
  exact List.map_inj_left.mp none_ c sign

theorem simple?_letter (type : Simple) : simple? type.letter = some type := by
  match type with
  | .void => rfl
  | .primitive type => cases type <;> rfl

open Scan

theorem simple_letter (type : Simple) (rest : List Char) :
    simple (type.letter :: rest) = .ok (some type, rest) := by
  rw [simple, bind_of (next?_eq _)]
  simp only [List.head?_cons, Option.bind_some, simple?_letter]
  rw [bind_of (expect_cons _ _)]
  rfl

theorem simple_type (type : Reference) (rest : List Char) :
    simple (type.spelled ++ rest) = .ok (none, type.spelled ++ rest) := by
  obtain ⟨c, sign, text, spelled⟩ := type.spelled_head
  rw [simple, bind_of (next?_eq _), spelled]
  simp only [List.cons_append, List.head?_cons, Option.bind_some, simple?_typeSigns sign]
  rfl

/-- Behind the name of a class and its type arguments, another name or the end of the type follows. -/
theorem nested_begins (nested : List Segment) (rest : List Char) :
    ∃ c ∈ ['.', ';'], ∃ behind,
      nested.flatMap (fun segment => '.' :: segment.spelled) ++ ';' :: rest = c :: behind := by
  cases nested with
  | nil => exact ⟨';', by decide, rest, rfl⟩
  | cons segment nested => exact ⟨'.', by decide, _, rfl⟩

/-- A class type is read if the class and those nested in it are, each up to the sign behind it. -/
theorem object_read {head : Segment} {nested : List Segment} {depth : Nat}
    (deep : (Reference.object head nested).spelled.length ≤ depth + 1)
    (each : ∀ part ∈ head :: nested, part.spelled.length ≤ depth → ∀ c ∈ ['.', ';'], ∀ rest,
      segment depth (part.spelled ++ c :: rest) = .ok (part, c :: rest)) (rest : List Char) :
    reference (depth + 1) ((Reference.object head nested).spelled ++ rest) =
      .ok (.object head nested, rest) := by
  have length := congrArg List.length (Reference.spelled_object head nested [])
  simp only [List.append_nil, List.length_cons, List.length_append, List.length_nil] at length
  -- Whether more classes are nested in it or not, a part is followed by a sign that ends its name.
  have read (part : Segment) (member : part ∈ head :: nested) (short : part.spelled.length ≤ depth)
      (later : List Segment) :
      segment depth (part.spelled ++
        (later.flatMap (fun segment => '.' :: segment.spelled) ++ ';' :: rest)) =
          .ok (part, later.flatMap (fun segment => '.' :: segment.spelled) ++ ';' :: rest) := by
    obtain ⟨c, sign, behind, same⟩ := nested_begins later rest
    rw [same]
    exact each part member short c sign behind
  have first := read head List.mem_cons_self (by omega) nested
  have others : behind '.' (segment depth) depth
      (nested.flatMap (fun segment => '.' :: segment.spelled) ++ ';' :: rest) =
        .ok (nested, ';' :: rest) := by
    refine behind_takes (fun part later suffix => ?_) (by simp) ?_
    · have member := suffix.subset List.mem_cons_self
      have shorter := length_le_flatMap (fun segment : Segment => '.' :: segment.spelled) member
      rw [List.length_cons] at shorter
      exact read part (List.mem_cons_of_mem _ member) (by omega) later
    · have counted := length_items_le (fun segment : Segment => '.' :: segment.spelled) nested (by simp)
      omega
  rw [Reference.spelled_object, reference, bind_of (next?_eq _)]
  simp only [List.head?_cons]
  rw [bind_of (expect_cons _ _), bind_of first, bind_of others, bind_of (expect_cons _ _)]
  rfl

/-- A name with type arguments is read if the arguments are. -/
theorem generic_read {found : List Char} {arguments : List Argument}
    (ends : EndsBefore classSigns found) {depth : Nat}
    (deep : (Segment.generic found arguments).spelled.length ≤ depth + 1)
    (each : ∀ given ∈ arguments, given.spelled.length < depth → ∀ rest,
      argument depth (given.spelled ++ rest) = .ok (given, rest)) (rest : List Char) :
    segment (depth + 1) ((Segment.generic found arguments).spelled ++ rest) =
      .ok (.generic found arguments, rest) := by
  have length := congrArg List.length (Segment.spelled_generic found arguments [])
  simp only [List.append_nil, List.length_cons, List.length_append, List.length_nil] at length
  have given : 0 < found.length := List.length_pos_iff.mpr ends.1
  have taken := name_append ends List.mem_cons_self (arguments.flatMap Argument.spelled ++ '>' :: rest)
  -- No argument begins with the sign that ends the list, and each is shorter than the whole text.
  have inside : upTo '>' (argument depth) (depth + 1)
      (arguments.flatMap Argument.spelled ++ '>' :: rest) = .ok (arguments, rest) := by
    refine upTo_reads (fun given _ => ?_) (fun given member shorter => each given member (by omega))
      (by omega) rest
    obtain ⟨c, sign, text, spelled⟩ := given.spelled_head
    refine ⟨c, text, spelled, ?_⟩
    rintro rfl
    revert sign
    decide
  rw [Segment.spelled_generic, segment]
  refine (bind_of taken _).trans ?_
  rw [bind_of (next?_eq _), List.head?_cons, if_pos rfl, bind_of (expect_cons _ _), bind_of inside]
  rfl

/-- The parts of a class type have proper names, and so have their arguments. -/
theorem proper_parts {head : Segment} {nested : List Segment}
    (proper : ∀ name ∈ (Reference.object head nested).names, name.Proper) {part : Segment}
    (member : part ∈ head :: nested) :
    EndsBefore classSigns part.name ∧ ∀ name ∈ part.names, name.Proper := by
  rw [Reference.names, List.forall_mem_cons, List.forall_mem_append] at proper
  obtain ⟨⟨top, simples⟩, inHead, inNested⟩ := proper
  obtain rfl | member := List.mem_cons.mp member
  · exact ⟨top, inHead⟩
  · exact ⟨simples _ (List.mem_map_of_mem member),
      fun name here => inNested name (mem_segmentsNames member here)⟩

mutual

/-- A type is read off the front of its text. The text of each part is shorter than that of the whole,
which is all the depth that is needed. -/
theorem reference_spelled (type : Reference) (proper : ∀ name ∈ type.names, name.Proper) {depth : Nat}
    (deep : type.spelled.length ≤ depth) (rest : List Char) :
    reference depth (type.spelled ++ rest) = .ok (type, rest) := by
  match type, depth with
  -- No text is empty, so without depth there is nothing to read.
  | type, 0 =>
    obtain ⟨c, -, text, spelled⟩ := type.spelled_head
    simp [spelled] at deep
  | .variable found, depth + 1 =>
    have ends : EndsBefore [';'] found := proper (.typeVariable found) List.mem_cons_self
    have spelled : (Reference.variable found).spelled ++ rest = 'T' :: (found ++ ';' :: rest) := by
      simp [Reference.spelled, Reference.text]
    rw [spelled, reference, bind_of (next?_eq _)]
    simp only [List.head?_cons]
    rw [bind_of (expect_cons _ _), bind_of (name_append ends List.mem_cons_self rest),
      bind_of (expect_cons _ _)]
    rfl
  | .simpleArray element, depth + 1 =>
    rw [show (Reference.simpleArray element).spelled ++ rest = '[' :: element.letter :: rest from rfl,
      reference, bind_of (next?_eq _)]
    simp only [List.head?_cons]
    rw [bind_of (expect_cons _ _), bind_of (simple_letter element rest)]
    rfl
  | .array element, depth + 1 =>
    have inner := reference_spelled element proper (Nat.le_of_succ_le_succ deep) rest
    rw [show (Reference.array element).spelled ++ rest = '[' :: (element.spelled ++ rest) from rfl,
      reference, bind_of (next?_eq _)]
    simp only [List.head?_cons]
    rw [bind_of (expect_cons _ _), bind_of (simple_type element rest)]
    dsimp only
    rw [bind_of inner]
    rfl
  | .object head nested, depth + 1 =>
    refine object_read deep (fun part member short c sign rest => ?_) rest
    obtain ⟨ends, inside⟩ := proper_parts proper member
    have smaller := List.sizeOf_lt_of_mem member
    rw [List.cons.sizeOf_spec] at smaller
    exact segment_spelled part ends inside short sign rest
termination_by sizeOf type

theorem segment_spelled (part : Segment) (ends : EndsBefore classSigns part.name)
    (proper : ∀ name ∈ part.names, name.Proper) {depth : Nat}
    (deep : part.spelled.length ≤ depth) {c : Char} (sign : c ∈ ['.', ';']) (rest : List Char) :
    segment depth (part.spelled ++ c :: rest) = .ok (part, c :: rest) := by
  match part, depth with
  | .plain found, depth =>
    have spelled : (Segment.plain found).spelled = found := by simp [Segment.spelled, Segment.text]
    have taken := name_append ends (List.mem_cons_of_mem '<' sign) rest
    have other : c ≠ '<' := by
      rintro rfl
      simp at sign
    -- A name is not empty, so its length leaves a depth for reading it.
    obtain _ | depth := depth
    · rw [spelled, Nat.le_zero, List.length_eq_zero_iff] at deep
      exact absurd deep ends.1
    rw [spelled, segment]
    refine (bind_of taken _).trans ?_
    rw [bind_of (next?_eq _), List.head?_cons, if_neg (by simpa using other)]
    rfl
  | .generic found arguments, 0 =>
    have length := congrArg List.length (Segment.spelled_generic found arguments [])
    simp only [List.append_nil, List.length_cons, List.length_append, List.length_nil] at length
    omega
  | .generic found arguments, depth + 1 =>
    refine generic_read ends deep (fun given member short rest => ?_) (c :: rest)
    have smaller := List.sizeOf_lt_of_mem member
    exact argument_spelled given (fun name here => proper name (mem_argumentsNames member here)) short rest
termination_by sizeOf part

theorem argument_spelled (given : Argument) (proper : ∀ name ∈ given.names, name.Proper)
    {depth : Nat} (deep : given.spelled.length < depth) (rest : List Char) :
    argument depth (given.spelled ++ rest) = .ok (given, rest) := by
  -- By the argument, together with the lemma about references, which calls this one for smaller
  -- arguments.
  match given, depth with
  | _, 0 => exact absurd deep (Nat.not_lt_zero _)
  | .any, depth + 1 => rfl
  | .bounded wildcard type, depth + 1 =>
    have inner := reference_spelled type proper
      (Nat.le_of_succ_le (Nat.le_of_lt_succ deep)) rest
    rw [show (Argument.bounded wildcard type).spelled ++ rest =
      wildcard.sign :: (type.spelled ++ rest) from rfl, argument, bind_of (next?_eq _)]
    cases wildcard <;>
    · simp only [List.head?_cons, Wildcard.sign]
      rw [bind_of (expect_cons _ _), bind_of inner]
      rfl
  | .exact type, depth + 1 =>
    have inner := reference_spelled type proper (Nat.le_of_lt_succ deep) rest
    obtain ⟨c, sign, text, spelled⟩ := type.spelled_head
    have begins : (type.spelled ++ rest).head? = some c := by rw [spelled]; rfl
    rw [show (Argument.exact type).spelled ++ rest = type.spelled ++ rest from rfl,
      argument, bind_of (next?_eq _), begins]
    simp only [typeSigns, List.mem_cons, List.not_mem_nil, or_false] at sign
    obtain rfl | rfl | rfl := sign <;> exact bind_of inner _
termination_by sizeOf given

end

/-! ## Signatures -/

def JavaType.names : JavaType → List Name
  | simple _ => []
  | reference type => type.names

def TypeParameter.names (parameter : TypeParameter) : List Name :=
  parameter.bounds.flatMap (·.elim [] Reference.names)

def Body.names : Body → List Name
  | method parameters returned thrown =>
    parameters.flatMap JavaType.names ++ returned.names ++ thrown.flatMap Reference.names
  | types all => all.flatMap Reference.names

/-- Every type parameter has a name and bounds, if only one that says nothing. -/
structure TypeParameter.Proper (parameter : TypeParameter) : Prop where
  named : EndsBefore [':', '>'] parameter.name
  bounded : parameter.bounds ≠ []

instance (parameter : TypeParameter) : Decidable parameter.Proper :=
  decidable_of_iff (EndsBefore [':', '>'] parameter.name ∧ parameter.bounds ≠ [])
    ⟨fun proper => ⟨proper.1, proper.2⟩, fun proper => ⟨proper.named, proper.bounded⟩⟩

/-- The second parameter does not look like a bound of the first. -/
def Parted (first second : TypeParameter) : Prop :=
  first.bounds.getLast? = some none → ∀ c ∈ second.name.head?, c ∉ typeSigns

theorem javaType_text (type : JavaType) (proper : ∀ name ∈ type.names, name.Proper) {depth : Nat}
    (deep : type.text.length ≤ depth) (rest : List Char) :
    javaType depth (type.text ++ rest) = .ok (type, rest) := by
  match type with
  | .simple type =>
    rw [show (JavaType.simple type).text ++ rest = type.letter :: rest from rfl, javaType,
      bind_of (simple_letter type rest)]
    rfl
  | .reference type =>
    rw [show (JavaType.reference type).text ++ rest = type.spelled ++ rest from rfl, javaType,
      bind_of (simple_type type rest)]
    exact bind_of (reference_spelled type proper deep rest) _

theorem JavaType.text_head (type : JavaType) : ∃ c text, type.text = c :: text ∧ c ≠ ')' := by
  match type with
  | .simple .void => exact ⟨'V', [], rfl, by decide⟩
  | .simple (.primitive type) => exact ⟨type.letter, [], rfl, by cases type <;> decide⟩
  | .reference type =>
    obtain ⟨c, sign, text, spelled⟩ := type.spelled_head
    refine ⟨c, text, spelled, ?_⟩
    rintro rfl
    revert sign
    decide

/-- What stands behind the colon of a bound. -/
def saidBound (bound : Option Reference) : List Char := bound.elim [] Reference.spelled

theorem boundText_eq (bound : Option Reference) : boundText bound = ':' :: saidBound bound := by
  cases bound <;> rfl

theorem TypeParameter.text_eq (parameter : TypeParameter) :
    parameter.text = parameter.name ++ parameter.bounds.flatMap (':' :: saidBound ·) := by
  rw [TypeParameter.text, funext boundText_eq]

theorem TypeParameter.Proper.text_head {parameter : TypeParameter} (given : parameter.Proper) :
    ∃ c ∈ parameter.name.head?, c ∉ [':', '>'] ∧ ∃ text, parameter.text = c :: text := by
  obtain ⟨nonempty, inside⟩ := given.named
  obtain ⟨c, name, named⟩ := List.exists_cons_of_ne_nil nonempty
  refine ⟨c, by rw [named]; rfl, inside c (by simp [named]),
    name ++ parameter.bounds.flatMap boundText, ?_⟩
  rw [TypeParameter.text, named]
  rfl

theorem bound_none {depth : Nat} {rest : List Char} (other : ∀ c ∈ rest.head?, c ∉ typeSigns) :
    bound depth rest = .ok (none, rest) := by
  rw [bound, bind_of (next?_eq _)]
  refine congrFun (g := (pure none : Scan (Option Reference))) ?_ rest
  split
  case h_4 => rfl
  all_goals
    rename_i begins
    exact absurd (by decide) (other _ begins)

theorem bound_some (type : Reference) (proper : ∀ name ∈ type.names, name.Proper) {depth : Nat}
    (deep : type.spelled.length ≤ depth) (rest : List Char) :
    bound depth (type.spelled ++ rest) = .ok (some type, rest) := by
  have inner := reference_spelled type proper deep rest
  obtain ⟨c, sign, text, spelled⟩ := type.spelled_head
  have begins : (type.spelled ++ rest).head? = some c := by rw [spelled]; rfl
  rw [bound, bind_of (next?_eq _), begins]
  simp only [typeSigns, List.mem_cons, List.not_mem_nil, or_false] at sign
  obtain rfl | rfl | rfl := sign <;> exact bind_of inner _

/-- The bounds of a parameter are read up to what is neither another bound nor a type that would be
taken for what the last bound says. -/
theorem typeParameter_text (parameter : TypeParameter) (given : parameter.Proper)
    (proper : ∀ name ∈ parameter.names, name.Proper) {depth : Nat}
    (deep : parameter.text.length ≤ depth) (rest : List Char) (stops : rest.head? ≠ some ':')
    (parted : parameter.bounds.getLast? = some none → ∀ c ∈ rest.head?, c ∉ typeSigns) :
    typeParameter depth (parameter.text ++ rest) = .ok (parameter, rest) := by
  obtain ⟨name, bounds⟩ := parameter
  obtain ⟨named, bounded⟩ := given
  rw [TypeParameter.text_eq, List.length_append] at deep
  dsimp only at deep
  have bounds_read : behind ':' (bound depth) depth
      (bounds.flatMap (':' :: saidBound ·) ++ rest) = .ok (bounds, rest) := by
    refine behind_takes (fun item later part => ?_) stops ?_
    · -- A silent bound must not be followed by what looks like a type: another bound begins with a
      -- colon, and what follows the last one is given not to look so.
      have member := part.subset List.mem_cons_self
      cases item with
      | some type =>
        have shorter := length_le_flatMap (':' :: saidBound ·) member
        rw [List.length_cons] at shorter
        exact bound_some type (fun name here => proper name (List.mem_flatMap.mpr
          ⟨some type, member, here⟩))
          (show (saidBound (some type)).length ≤ depth by omega) _
      | none =>
        refine bound_none ?_
        cases later with
        | nil =>
          obtain ⟨front, rfl⟩ := part
          exact parted (by simp)
        | cons next later =>
          rintro c ⟨⟩
          decide
    · have counted := length_items_le (':' :: saidBound ·) bounds (by simp)
      omega
  obtain ⟨first, others, rfl⟩ := List.exists_cons_of_ne_nil bounded
  have taken := name_append named List.mem_cons_self
    (saidBound first ++ others.flatMap (':' :: saidBound ·) ++ rest)
  rw [List.flatMap_cons, List.cons_append, List.cons_append] at bounds_read
  rw [TypeParameter.text_eq, typeParameter, List.flatMap_cons, List.cons_append, List.append_assoc,
    List.cons_append]
  refine (bind_of taken _).trans ?_
  rw [bind_of (next?_eq _), List.head?_cons, if_pos rfl, bind_of bounds_read]
  rfl

theorem Body.text_method (parameters : List JavaType) (returned : JavaType)
    (thrown : List Reference) :
    (Body.method parameters returned thrown).text =
      '(' :: (parameters.flatMap JavaType.text ++ ')' :: (returned.text ++
        (thrown.flatMap ('^' :: ·.spelled) ++ []))) := by
  simp only [List.append_nil]
  rfl

theorem scanBody_method {parameters : List JavaType} {returned : JavaType} {thrown : List Reference}
    (proper : ∀ name ∈ (Body.method parameters returned thrown).names, name.Proper) {depth : Nat}
    (deep : (Body.method parameters returned thrown).text.length ≤ depth) :
    scanBody depth (Body.method parameters returned thrown).text =
      .ok (.method parameters returned thrown, []) := by
  simp only [Body.names, List.forall_mem_append] at proper
  obtain ⟨⟨inParameters, inReturned⟩, inThrown⟩ := proper
  have length := congrArg List.length (Body.text_method parameters returned thrown)
  simp only [List.append_nil, List.length_cons, List.length_append] at length
  -- All parts lie within the whole text, so the depth is enough for each of them.
  have before : upTo ')' (javaType depth) depth (parameters.flatMap JavaType.text ++
      ')' :: (returned.text ++ (thrown.flatMap ('^' :: ·.spelled) ++ []))) =
        .ok (parameters, returned.text ++ (thrown.flatMap ('^' :: ·.spelled) ++ [])) :=
    upTo_reads (fun type _ => type.text_head) (fun type member shorter => javaType_text type
      (fun name here => inParameters name (List.mem_flatMap.mpr ⟨type, member, here⟩)) (by omega))
      (by omega) _
  have result : javaType depth (returned.text ++ (thrown.flatMap ('^' :: ·.spelled) ++ [])) = _ :=
    javaType_text returned inReturned (by omega) _
  have after : behind '^' (reference depth) depth (thrown.flatMap ('^' :: ·.spelled) ++ []) =
      .ok (thrown, []) :=
    behind_reads (fun type member shorter => reference_spelled type
      (fun name here => inThrown name (List.mem_flatMap.mpr ⟨type, member, here⟩)) (by omega))
      (by omega) (by simp)
  rw [Body.text_method, scanBody, bind_of (next?_eq _), List.head?_cons, if_pos rfl,
    bind_of (expect_cons _ _), bind_of before, bind_of result, bind_of after,
    bind_of (next?_eq _), List.head?_nil, if_pos rfl]
  rfl

theorem Body.text_head (body : Body) : body.text.head? ≠ some '<' := by
  match body with
  | .method _ _ _ => simp [Body.text]
  | .types [] => simp [Body.text]
  | .types (type :: all) => exact type.head?_spelled (by decide) _

theorem scanBody_types {all : List Reference} (proper : ∀ name ∈ (Body.types all).names, name.Proper)
    {depth : Nat} (deep : (Body.types all).text.length ≤ depth) :
    scanBody depth (Body.types all).text = .ok (.types all, []) := by
  have inside : toEnd (reference depth) depth (all.flatMap Reference.spelled) = .ok (all, []) :=
    toEnd_reads (fun type _ => type.spelled_ne_nil) (fun type member shorter => reference_spelled type
      (fun name here => proper name (List.mem_flatMap.mpr ⟨type, member, here⟩))
      (Nat.le_trans shorter deep)) deep
  have begins : (all.flatMap Reference.spelled).head? ≠ some '(' := by
    cases all with
    | nil => simp
    | cons type all =>
      rw [List.flatMap_cons]
      exact type.head?_spelled (by decide) _
  rw [show (Body.types all).text = all.flatMap Reference.spelled from rfl, scanBody,
    bind_of (next?_eq _), if_neg begins, bind_of inside]
  rfl

theorem scanBody_text (body : Body) (proper : ∀ name ∈ body.names, name.Proper) {depth : Nat}
    (deep : body.text.length ≤ depth) : scanBody depth body.text = .ok (body, []) := by
  cases body with
  | method => exact scanBody_method proper deep
  | types => exact scanBody_types proper deep

end JarRemap.Signature

namespace JarRemap

namespace Signature

/-- The names in a signature, in the order in which they are written. -/
def names (signature : Signature) : List Name :=
  (signature.parameters.getD []).flatMap TypeParameter.names ++ signature.body.names

/-- Every name in the signature ends where the next sign is. -/
structure WellNamed (signature : Signature) : Prop where
  names : ∀ name ∈ signature.names, name.Proper
  parameters : ∀ parameter ∈ signature.parameters.getD [], parameter.Proper

instance (signature : Signature) : Decidable signature.WellNamed :=
  decidable_of_iff ((∀ name ∈ signature.names, name.Proper) ∧
    ∀ parameter ∈ signature.parameters.getD [], parameter.Proper)
    ⟨fun named => ⟨named.1, named.2⟩, fun named => ⟨named.names, named.parameters⟩⟩

/-- No type parameter looks like a bound of the one before it. -/
def Unmistaken (signature : Signature) : Prop :=
  (signature.parameters.getD []).IsChain Parted

open Scan

theorem parameters_read {parameters : List TypeParameter}
    (given : ∀ parameter ∈ parameters, parameter.Proper)
    (proper : ∀ name ∈ parameters.flatMap TypeParameter.names, name.Proper)
    (parted : parameters.IsChain Parted) {depth : Nat}
    (deep : (parameters.flatMap TypeParameter.text).length ≤ depth) (rest : List Char) :
    upTo '>' (typeParameter depth) depth (parameters.flatMap TypeParameter.text ++ '>' :: rest) =
      .ok (parameters, rest) := by
  refine upTo_takes (fun parameter member behind => ?_) (fun parameter later part => ?_) ?_
  · obtain ⟨c, -, other, text, spelled⟩ := (given parameter member).text_head
    rw [spelled]
    rintro same
    obtain rfl := Option.some.inj same
    exact other (by decide)
  · have member := part.subset List.mem_cons_self
    have shorter := length_le_flatMap TypeParameter.text member
    have read := typeParameter_text parameter (given parameter member)
      (fun name here => proper name (List.mem_flatMap.mpr ⟨parameter, member, here⟩))
      (Nat.le_trans shorter deep) (later.flatMap TypeParameter.text ++ '>' :: rest)
    -- Behind the last parameter stands the closing bracket, behind any other the name of the next.
    cases later with
    | nil => exact read (by simp) (fun _ => by simp [typeSigns])
    | cons next later =>
      obtain ⟨c, first, other, text, spelled⟩ :=
        (given next (part.subset (List.mem_cons_of_mem _ List.mem_cons_self))).text_head
      rw [List.flatMap_cons, spelled] at read ⊢
      refine read ?_ ?_
      · rintro same
        obtain rfl := Option.some.inj same
        exact other List.mem_cons_self
      · rintro silent c ⟨⟩
        exact (List.isChain_cons_cons.mp (parted.suffix part)).1 silent c first
  · have counted := length_items_le TypeParameter.text parameters
      fun parameter member => by
        obtain ⟨c, -, -, text, spelled⟩ := (given parameter member).text_head
        simp [spelled]
    exact Nat.le_trans counted deep

/-- A signature is read off its own text. -/
theorem whole_text (signature : Signature) (named : signature.WellNamed)
    (unmistaken : signature.Unmistaken) {depth : Nat} (deep : signature.text.length ≤ depth) :
    whole depth signature.text = .ok (signature, []) := by
  obtain ⟨parameters, body⟩ := signature
  obtain ⟨proper, given⟩ := named
  rw [names, List.forall_mem_append] at proper
  -- Whether there are parameters is told by the first sign, which is never that of a body.
  cases parameters with
  | none =>
    rw [show text ⟨none, body⟩ = body.text from rfl] at deep ⊢
    rw [whole, bind_of (next?_eq _), if_neg body.text_head, bind_of (scanBody_text body proper.2 deep)]
    rfl
  | some parameters =>
    have spelled : text ⟨some parameters, body⟩ =
        '<' :: (parameters.flatMap TypeParameter.text ++ '>' :: body.text) := by
      simp [text]
    have length := congrArg List.length spelled
    rw [List.length_cons, List.length_append, List.length_cons] at length
    have inside : ∀ parameter ∈ parameters, parameter.Proper := given
    have before : upTo '>' (typeParameter depth) depth
        (parameters.flatMap TypeParameter.text ++ '>' :: body.text) = .ok (parameters, body.text) :=
      parameters_read inside proper.1 unmistaken (by omega) body.text
    rw [spelled, whole, bind_of (next?_eq _), List.head?_cons, if_pos rfl, bind_of (expect_cons _ _),
      bind_of before, bind_of (scanBody_text body proper.2 (by omega))]
    rfl

theorem read_text (signature : Signature) (named : signature.WellNamed)
    (unmistaken : signature.Unmistaken) :
    read (String.ofList signature.text) = .ok signature := by
  rw [read, String.toList_ofList, whole_text signature named unmistaken (Nat.le_succ _)]

end Signature

end JarRemap
