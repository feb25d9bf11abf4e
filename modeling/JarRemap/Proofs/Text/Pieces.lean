import JarRemap.Proofs.Path
import JarRemap.Text.Blank
import Mathlib.Data.List.DropRight
import Mathlib.Data.List.TakeWhile

/-!
# Marks, words and outer blanks

Where a text is cut: at the first or the last mark in it, and at the blanks between its words. Blanks
around a text change neither its words nor what is left of it without them.
-/

namespace JarRemap.Text

/-! ## Marks -/

theorem cut_eq_some_iff {mark : Char} {chars before after : List Char} :
    cut mark chars = (before, some after) ↔ chars = before ++ mark :: after ∧ mark ∉ before := by
  constructor
  · intro found
    refine ⟨append_of_cut found, fun within => ?_⟩
    simp only [cut] at found
    split at found
    · simp at found
    · obtain ⟨rfl, -⟩ := Prod.mk.inj found
      simpa using List.all_eq_true.mp List.all_takeWhile mark within
  · rintro ⟨rfl, free⟩
    have passes : ∀ c ∈ before, (c != mark) = true := fun c member =>
      bne_iff_ne.mpr fun same => free (same ▸ member)
    simp [cut, List.dropWhile_append_of_pos passes, List.takeWhile_append_of_pos passes]

theorem cut_of_notMem {mark : Char} {chars : List Char} (free : mark ∉ chars) :
    cut mark chars = (chars, none) := by
  have nothing : chars.dropWhile (· != mark) = [] :=
    List.dropWhile_eq_nil_iff.mpr fun c member => bne_iff_ne.mpr fun same => free (same ▸ member)
  rw [cut, nothing]

theorem notMem_cut (mark : Char) (chars : List Char) : mark ∉ (cut mark chars).1 := by
  by_cases within : mark ∈ chars
  · obtain ⟨before, after, split, free⟩ := List.eq_append_cons_of_mem within
    rwa [cut_eq_some_iff.mpr ⟨split, free⟩]
  · rwa [cut_of_notMem within]

theorem cutLast?_eq_some_iff {mark : Char} {chars before after : List Char} :
    cutLast? mark chars = some (before, after) ↔ chars = before ++ mark :: after ∧ mark ∉ after := by
  constructor
  · intro found
    refine ⟨append_of_cutLast? found, fun within => ?_⟩
    rw [cutLast?] at found
    split at found
    · cases found
    · next behind front cutting =>
      obtain ⟨-, rfl⟩ := Prod.mk.inj (Option.some.inj found)
      exact (cut_eq_some_iff.mp cutting).2 (List.mem_reverse.mp within)
  · rintro ⟨rfl, free⟩
    have cutting : cut mark (before ++ mark :: after).reverse = (after.reverse, some before.reverse) :=
      cut_eq_some_iff.mpr ⟨by simp, by simpa using free⟩
    rw [cutLast?, cutting]
    simp

theorem cutLast?_eq_none_iff {mark : Char} {chars : List Char} :
    cutLast? mark chars = none ↔ mark ∉ chars := by
  constructor
  · intro uncut within
    obtain ⟨after, before, turned, free⟩ := List.eq_append_cons_of_mem (List.mem_reverse.mpr within)
    rw [cutLast?, cut_eq_some_iff.mpr ⟨turned, free⟩] at uncut
    cases uncut
  · intro free
    rw [cutLast?, cut_of_notMem (by simpa using free)]

theorem before?_eq_some_iff {ending chars rest : List Char} :
    before? ending chars = some rest ↔ chars = rest ++ ending := by
  simp only [before?, Option.map_eq_some_iff, after?_eq_some_iff]
  constructor
  · rintro ⟨turned, same, rfl⟩
    simpa using congrArg List.reverse same
  · rintro rfl
    exact ⟨rest.reverse, by simp, by simp⟩

/-- Two texts that are the same are cut into the same parts at the first mark. -/
theorem first_mark_inj {mark : Char} {before after before' after' : List Char} (free : mark ∉ before)
    (free' : mark ∉ before') (same : before ++ mark :: after = before' ++ mark :: after') :
    before = before' ∧ after = after' := by
  have cutting := cut_eq_some_iff.mpr ⟨same, free'⟩
  rw [cut_eq_some_iff.mpr ⟨rfl, free⟩] at cutting
  simpa using cutting

theorem last_mark_inj {mark : Char} {before after before' after' : List Char} (free : mark ∉ after)
    (free' : mark ∉ after') (same : before ++ mark :: after = before' ++ mark :: after') :
    before = before' ∧ after = after' := by
  have cutting := cutLast?_eq_some_iff.mpr ⟨same, free'⟩
  rw [cutLast?_eq_some_iff.mpr ⟨rfl, free⟩] at cutting
  simpa using cutting

/-! ## Words -/

/-- The text is made of these words, with blanks between them and maybe around them. -/
inductive Spaced : List Char → List (List Char) → Prop
  | nil : Spaced [] []
  | blank {c : Char} {rest : List Char} {words : List (List Char)} :
      isBlank c → Spaced rest words → Spaced (c :: rest) words
  | word {word rest : List Char} {words : List (List Char)} :
      word ≠ [] → (∀ c ∈ word, isBlank c = false) → (∀ c ∈ rest.head?, isBlank c) →
        Spaced rest words → Spaced (word ++ rest) (word :: words)

theorem words_append_blank {c : Char} (blank : isBlank c) (front back : List Char) :
    words (front ++ c :: back) = words front ++ words back := by
  rw [words, words, words, splitWhen_eq, splitWhen_eq, splitWhen_eq,
    List.splitOnP_append_cons _ _ blank, List.filter_append]

theorem words_cons_blank {c : Char} (blank : isBlank c) (rest : List Char) :
    words (c :: rest) = words rest :=
  words_append_blank blank [] rest

theorem words_solid {word : List Char} (begun : word ≠ []) (solid : ∀ c ∈ word, isBlank c = false) :
    words word = [word] := by
  rw [words, splitWhen_eq, List.splitOnP_eq_singleton solid]
  simp [begun]

theorem words_word {word rest : List Char} (begun : word ≠ []) (solid : ∀ c ∈ word, isBlank c = false)
    (ends : ∀ c ∈ rest.head?, isBlank c) : words (word ++ rest) = word :: words rest := by
  cases rest with
  | nil => rw [List.append_nil, words_solid begun solid]; rfl
  | cons c rest =>
    have blank : isBlank c := ends c rfl
    rw [words_append_blank blank, words_cons_blank blank, words_solid begun solid]
    rfl

theorem spaced_words (chars : List Char) : Spaced chars (words chars) := by
  -- Each round takes a blank or a whole word away.
  induction shorter : chars.length using Nat.strongRecOn generalizing chars with
  | _ size ih =>
    subst shorter
    cases chars with
    | nil => exact .nil
    | cons c rest =>
      by_cases blank : isBlank c
      · rw [words_cons_blank blank]
        exact .blank blank (ih rest.length (by simp) rest rfl)
      · have solid : ∀ d ∈ (c :: rest).takeWhile (!isBlank ·), isBlank d = false := fun d member => by
          simpa using List.all_eq_true.mp List.all_takeWhile d member
        have begun : (c :: rest).takeWhile (!isBlank ·) ≠ [] := by simp [blank]
        have ends : ∀ d ∈ ((c :: rest).dropWhile (!isBlank ·)).head?, isBlank d := by
          intro d first
          have stops := List.head?_dropWhile_not (!isBlank ·) (c :: rest)
          rw [Option.mem_def.mp first] at stops
          simpa using stops
        have less : ((c :: rest).dropWhile (!isBlank ·)).length < (c :: rest).length := by
          simpa [blank] using Nat.lt_succ_of_le (List.dropWhile_sublist _).length_le
        have whole := List.takeWhile_append_dropWhile (p := (!isBlank ·)) (l := c :: rest)
        have spaced := Spaced.word begun solid ends (ih _ less _ rfl)
        rwa [← words_word begun solid ends, whole] at spaced

theorem spaced_iff {chars : List Char} {found : List (List Char)} :
    Spaced chars found ↔ words chars = found := by
  constructor
  · intro spaced
    induction spaced with
    | nil => rfl
    | blank blank _ ih => rw [words_cons_blank blank, ih]
    | word begun solid ends _ ih => rw [words_word begun solid ends, ih]
  · rintro rfl
    exact spaced_words chars

theorem Spaced.solid {chars word : List Char} {found : List (List Char)} (spaced : Spaced chars found)
    (member : word ∈ found) : word ≠ [] ∧ ∀ c ∈ word, isBlank c = false := by
  induction spaced with
  | nil => cases member
  | blank _ _ ih => exact ih member
  | word begun solid _ _ ih =>
    obtain rfl | member := List.mem_cons.mp member
    · exact ⟨begun, solid⟩
    · exact ih member

theorem Spaced.mem {chars word : List Char} {found : List (List Char)} {c : Char}
    (spaced : Spaced chars found) (member : word ∈ found) (within : c ∈ word) : c ∈ chars := by
  induction spaced with
  | nil => cases member
  | blank _ _ ih => exact List.mem_cons_of_mem _ (ih member)
  | word _ _ _ _ ih =>
    obtain rfl | member := List.mem_cons.mp member
    · exact List.mem_append_left _ within
    · exact List.mem_append_right _ (ih member)

/-- Words that are put together with a blank after each but the last are found again. -/
theorem words_intercalate {found : List (List Char)}
    (solid : ∀ word ∈ found, word ≠ [] ∧ ∀ c ∈ word, isBlank c = false) :
    words (List.intercalate [' '] found) = found := by
  induction found with
  | nil => rfl
  | cons word found ih =>
    obtain ⟨⟨begun, unbroken⟩, others⟩ := List.forall_mem_cons.mp solid
    -- No blank follows the last word.
    cases found with
    | nil =>
      rw [List.intercalate_singleton]
      exact words_solid begun unbroken
    | cons next found =>
      rw [List.intercalate_cons_cons, List.append_assoc, List.singleton_append,
        words_append_blank rfl, words_solid begun unbroken, ih others]
      rfl

/-! ## Outer blanks -/

theorem words_blank {blanks : List Char} (blank : ∀ c ∈ blanks, isBlank c) : words blanks = [] := by
  induction blanks with
  | nil => rfl
  | cons c blanks ih =>
    obtain ⟨first, others⟩ := List.forall_mem_cons.mp blank
    rw [words_cons_blank first, ih others]

theorem words_trimEnd (chars : List Char) : words (trimEnd chars) = words chars := by
  have whole : chars = trimEnd chars ++ (chars.reverse.takeWhile isBlank).reverse := by
    rw [trimEnd, ← List.reverse_append, List.takeWhile_append_dropWhile, List.reverse_reverse]
  have blank : ∀ c ∈ (chars.reverse.takeWhile isBlank).reverse, isBlank c := fun c member =>
    List.all_eq_true.mp List.all_takeWhile c (List.mem_reverse.mp member)
  conv => rhs; rw [whole]
  cases behind : (chars.reverse.takeWhile isBlank).reverse with
  | nil => rw [List.append_nil]
  | cons c blanks =>
    rw [behind] at blank
    obtain ⟨first, others⟩ := List.forall_mem_cons.mp blank
    rw [words_append_blank first, words_blank others, List.append_nil]

theorem words_trim (chars : List Char) : words (trim chars) = words chars := by
  rw [trim, words_trimEnd]
  induction chars with
  | nil => rfl
  | cons c chars ih =>
    by_cases blank : isBlank c
    · rw [List.dropWhile_cons_of_pos blank, ih, words_cons_blank blank]
    · rw [List.dropWhile_cons_of_neg blank]

theorem trimEnd_append_cons {c : Char} (solid : isBlank c = false) (front back : List Char) :
    trimEnd (front ++ c :: back) = front ++ c :: trimEnd back := by
  have turned : (front ++ c :: back).reverse = back.reverse ++ (c :: front.reverse) := by simp
  have kept : (c :: front.reverse).dropWhile isBlank = c :: front.reverse := by simp [solid]
  rw [trimEnd, turned, List.dropWhile_append, trimEnd]
  split
  next none_ =>
    rw [kept, List.isEmpty_iff.mp none_]
    simp
  next => simp

/-- Blanks at the two ends of a text stay apart if there is anything else between them. -/
theorem trim_append_cons {c : Char} (solid : isBlank c = false) (front back : List Char) :
    trim (front ++ c :: back) = front.dropWhile isBlank ++ c :: trimEnd back := by
  have begun : (front ++ c :: back).dropWhile isBlank = front.dropWhile isBlank ++ c :: back := by
    rw [List.dropWhile_append]
    split
    next none_ => simp [solid, List.isEmpty_iff.mp none_]
    next => rfl
  rw [trim, begun, trimEnd_append_cons solid]

theorem trim_dropWhile (chars : List Char) : trim (chars.dropWhile isBlank) = trim chars := by
  rw [trim, trim, List.dropWhile_idempotent]

/-- The text has no blank at either end. -/
structure Trimmed (chars : List Char) : Prop where
  begins : ∀ c ∈ chars.head?, isBlank c = false
  ends : ∀ c ∈ chars.getLast?, isBlank c = false

theorem trimmed_trim (chars : List Char) : Trimmed (trim chars) where
  begins c first := by
    have stops := List.head?_dropWhile_not isBlank chars
    obtain ⟨rest, whole⟩ := List.rdropWhile_prefix isBlank (chars.dropWhile isBlank)
    have first : (trim chars).head? = some c := first
    rw [← whole, List.head?_append] at stops
    rw [trim, trimEnd, ← List.rdropWhile] at first
    rw [first] at stops
    simpa using stops
  ends c last := by
    have stops := List.head?_dropWhile_not isBlank (chars.dropWhile isBlank).reverse
    have last : (trim chars).getLast? = some c := last
    rw [trim, trimEnd, List.getLast?_reverse] at last
    rw [last] at stops
    simpa using stops

theorem trim_of_padded {before core after : List Char} (trimmed : Trimmed core)
    (front : ∀ c ∈ before, isBlank c) (back : ∀ c ∈ after, isBlank c) :
    trim (before ++ core ++ after) = core := by
  -- If there is nothing in the middle, the blanks on both sides are trimmed as one.
  cases core with
  | nil =>
    have blank : ∀ c ∈ before ++ [] ++ after, isBlank c := by
      simpa [or_imp, forall_and] using ⟨front, back⟩
    rw [trim, List.dropWhile_eq_nil_iff.mpr blank]
    rfl
  | cons c core =>
    have first : isBlank c = false := trimmed.begins c rfl
    have begun : (before ++ (c :: core) ++ after).dropWhile isBlank = (c :: core) ++ after := by
      rw [List.append_assoc, List.dropWhile_append_of_pos front, List.cons_append,
        List.dropWhile_cons_of_neg (by simp [first])]
    have stops : (c :: core).reverse.dropWhile isBlank = (c :: core).reverse := by
      obtain ⟨d, others, turned⟩ := List.exists_cons_of_ne_nil (List.reverse_ne_nil_iff.mpr
        (List.cons_ne_nil c core))
      have last : (c :: core).getLast? = some d := by rw [← List.head?_reverse, turned]; rfl
      rw [turned, List.dropWhile_cons_of_neg (by simp [trimmed.ends d last])]
    rw [trim, begun, trimEnd, List.reverse_append,
      List.dropWhile_append_of_pos fun d member => back d (List.mem_reverse.mp member), stops,
      List.reverse_reverse]

/-- What is left of a text without outer blanks. -/
theorem trim_eq_iff {chars core : List Char} :
    trim chars = core ↔ Trimmed core ∧ ∃ before after, chars = before ++ core ++ after ∧
      (∀ c ∈ before, isBlank c) ∧ ∀ c ∈ after, isBlank c := by
  constructor
  · rintro rfl
    have within : chars = chars.takeWhile isBlank ++ trim chars ++
        ((chars.dropWhile isBlank).reverse.takeWhile isBlank).reverse := by
      rw [trim, trimEnd, List.append_assoc, ← List.reverse_append, List.takeWhile_append_dropWhile,
        List.reverse_reverse, List.takeWhile_append_dropWhile]
    exact ⟨trimmed_trim chars, _, _, within, List.all_eq_true.mp List.all_takeWhile,
      fun c member => List.all_eq_true.mp List.all_takeWhile c (List.mem_reverse.mp member)⟩
  · rintro ⟨trimmed, before, after, rfl, front, back⟩
    exact trim_of_padded trimmed front back

theorem trim_subset (chars : List Char) : trim chars ⊆ chars := by
  obtain ⟨-, before, after, whole, -⟩ := trim_eq_iff.mp (rfl : trim chars = trim chars)
  intro c within
  rw [whole]
  exact List.mem_append_left _ (List.mem_append_right _ within)

theorem trim_eq_nil_iff {chars : List Char} : trim chars = [] ↔ ∀ c ∈ chars, isBlank c := by
  rw [trim_eq_iff]
  constructor
  · rintro ⟨-, before, after, rfl, front, back⟩
    simpa [or_imp, forall_and] using ⟨front, back⟩
  · intro blank
    exact ⟨⟨by simp, by simp⟩, chars, [], by simp, blank, by simp⟩

end JarRemap.Text
