import JarRemap.Proofs.Outcome
import JarRemap.Proofs.Run.Config
import JarRemap.Proofs.Text.Utf8
import JarRemap.Run.Fingerprint
import Mathlib.Algebra.Group.Nat.Defs

/-!
# What a fingerprint says

The message under a fingerprint tells the configuration and every input file: nothing in it can be
taken for something else. The configuration ends where its JSON ends, then the configuration says
which files follow, and each of them tells its length.
-/

namespace JarRemap

namespace Bytes

theorem length_ofNatLittle (width value : Nat) : (ofNatLittle width value).length = width := by
  induction width generalizing value with
  | zero => rfl
  | succ width ih => rw [ofNatLittle, List.length_cons, ih]

theorem ofNatLittle_inj {width value other : Nat} (fits : value < 256 ^ width)
    (otherFits : other < 256 ^ width) (same : ofNatLittle width value = ofNatLittle width other) :
    value = other := by
  induction width generalizing value other with
  | zero => omega
  | succ width ih =>
    rw [ofNatLittle, ofNatLittle, List.cons.injEq] at same
    rw [Nat.pow_succ] at fits otherFits
    have low : value % 256 = other % 256 := by
      simpa [UInt8.toNat_ofNat'] using congrArg UInt8.toNat same.1
    have high := ih (by omega) (by omega) same.2
    omega

/-- Different bytes have different digits. -/
theorem hex_injective : Function.Injective hex := by
  have digit : ∀ n < 16, ∀ m < 16, Nat.digitChar n = Nat.digitChar m → n = m := by decide
  intro bytes others same
  replace same := String.ofList_injective same
  induction bytes generalizing others with
  | nil =>
    cases others with
    | nil => rfl
    | cons other others => simp at same
  | cons byte bytes ih =>
    cases others with
    | nil => simp at same
    | cons other others =>
      simp only [List.flatMap_cons, List.cons_append, List.nil_append, List.cons.injEq] at same
      obtain ⟨high, low, rest⟩ := same
      -- Each byte has two digits, its quotient by sixteen and the rest.
      have bound := byte.toNat_lt
      have otherBound := other.toNat_lt
      have highs := digit _ (by omega) _ (by omega) high
      have lows := digit _ (by omega) _ (by omega) low
      have head : byte = other := UInt8.toNat_inj.mp (by omega)
      rw [head, ih rest]

/-- There is no blank among the digits, so they are read as they were written. -/
theorem trim_hex (bytes : Bytes) : Text.trim (hex bytes).toList = (hex bytes).toList := by
  have solid : ∀ n < 16, Text.isBlank (Nat.digitChar n) = false := by decide
  have all : ∀ c ∈ (hex bytes).toList, Text.isBlank c = false := by
    simp only [hex, String.toList_ofList, List.mem_flatMap]
    rintro c ⟨byte, -, member⟩
    have bound := byte.toNat_lt
    obtain rfl | rfl : c = _ ∨ c = _ := by simpa using member
    · exact solid _ (by omega)
    · exact solid _ (by omega)
  have kept {chars : List Char} (all : ∀ c ∈ chars, Text.isBlank c = false) :
      chars.dropWhile Text.isBlank = chars := by
    cases chars with
    | nil => rfl
    | cons c chars => rw [List.dropWhile_cons_of_neg (by simp [all])]
  rw [Text.trim, Text.trimEnd, kept all, kept fun c member => all c (List.mem_reverse.mp member),
    List.reverse_reverse]

end Bytes

namespace Fingerprint

/-- Files that can be told apart: a length takes no more than eight bytes. -/
def Measured (contents : List (Path × Bytes)) : Prop :=
  ∀ file ∈ contents, file.2.length < 256 ^ 8

theorem fileBytes_inj {path : Path} {data other rest more : Bytes} (fits : data.length < 256 ^ 8)
    (otherFits : other.length < 256 ^ 8)
    (same : fileBytes path data ++ rest = fileBytes path other ++ more) :
    data = other ∧ rest = more := by
  simp only [fileBytes, List.append_assoc] at same
  have lengths := List.append_inj (List.append_cancel_left same) (by simp only [Bytes.length_ofNatLittle])
  exact List.append_inj lengths.2 (Bytes.ofNatLittle_inj fits otherFits lengths.1)

theorem flatMap_fileBytes_inj {contents others : List (Path × Bytes)}
    (files : contents.map Prod.fst = others.map Prod.fst) (measured : Measured contents)
    (otherMeasured : Measured others)
    (same : contents.flatMap (fun (path, data) => fileBytes path data) =
      others.flatMap fun (path, data) => fileBytes path data) : contents = others := by
  induction contents generalizing others with
  | nil => exact (List.map_eq_nil_iff.mp files.symm).symm
  | cons file contents ih =>
    cases others with
    | nil => simp at files
    | cons other others =>
      obtain ⟨path, data⟩ := file
      obtain ⟨_, otherData⟩ := other
      obtain ⟨rfl, behind⟩ := List.cons.inj files
      rw [Measured, List.forall_mem_cons] at measured otherMeasured
      obtain ⟨rfl, rest⟩ := fileBytes_inj measured.1 otherMeasured.1 same
      rw [ih behind measured.2 otherMeasured.2 rest]

/-- The JSON of a configuration shows where it ends, whatever bytes follow it. -/
theorem compact_delimits {config other : RunConfig} {rest more : Bytes}
    (same : config.toJson.compact.toUTF8.toList ++ rest =
      other.toJson.compact.toUTF8.toList ++ more) : config = other := by
  have record (config : RunConfig) : ¬∃ n, config.toJson = .ofNat n := by
    rintro ⟨n, number⟩
    simp [RunConfig.toJson, Json.record, Json.ofNat] at number
  have begins {config other : RunConfig}
      (front : config.toJson.print .compact 0 <+: other.toJson.print .compact 0) : config = other := by
    obtain ⟨behind, whole⟩ := front
    exact RunConfig.toJson_injective (Json.print_delimits Json.Layout.compact_spaces
      (RunConfig.lossless.whole config) (RunConfig.lossless.whole other) (record config) whole)
  simp only [Text.toList_toUTF8, Json.compact, String.toList_ofList] at same
  obtain front | front := Text.prefix_or_prefix_of_flatMap same
  · exact begins front
  · exact (begins front).symm

/-- Runs with the same message have the same configuration and the same input files. -/
theorem message_inj {config other : RunConfig} {contents others : List (Path × Bytes)}
    (files : contents.map Prod.fst = config.inputFiles)
    (otherFiles : others.map Prod.fst = other.inputFiles) (measured : Measured contents)
    (otherMeasured : Measured others) (same : message config contents = message other others) :
    config = other ∧ contents = others := by
  simp only [message, List.append_assoc] at same
  have behind := List.append_cancel_left same
  obtain rfl := compact_delimits behind
  exact ⟨rfl, flatMap_fileBytes_inj (files.trans otherFiles.symm) measured otherMeasured
    (List.append_cancel_left behind)⟩

/-! ## The message under a fingerprint -/

/-- What is in the input files is listed in their order. -/
theorem inputContents_ok_iff {tree : FileTree} {config : RunConfig} {contents : List (Path × Bytes)} :
    inputContents tree config = .ok contents ↔ ∃ data : List Bytes,
      List.Forall₂ (fun path bytes => tree.bytesAt path = .ok bytes) config.inputFiles data ∧
        contents = config.inputFiles.zip data := by
  rw [inputContents, mapM_ok_iff]
  generalize config.inputFiles = files
  constructor
  · intro found
    -- File by file, since each is listed with what was read of it.
    induction found with
    | nil => exact ⟨[], .nil, rfl⟩
    | cons head _ ih =>
      obtain ⟨bytes, read, given⟩ := (bind_ok_iff _ _ _).mp head
      obtain rfl := (pure_ok_iff _ _).mp given
      obtain ⟨data, rest, rfl⟩ := ih
      exact ⟨bytes :: data, .cons read rest, rfl⟩
  · rintro ⟨data, found, rfl⟩
    induction found with
    | nil => exact .nil
    | cons read _ ih =>
      refine .cons ?_ ih
      rw [read]
      rfl

/-- A fingerprint is the digest of a message that tells the configuration and what is in each of the input
files. The same file may be listed more than once and may be empty, and what is in it may look like
anything, as long as its length can be written in eight bytes. -/
theorem compute_message_injective :
    (∀ tree config digest, compute tree config = .ok digest ↔ ∃ data : List Bytes,
      List.Forall₂ (fun path bytes => tree.bytesAt path = .ok bytes) config.inputFiles data ∧
        digest = Bytes.hex (Sha3.digest (message config (config.inputFiles.zip data)))) ∧
    ∀ (config other : RunConfig) (data others : List Bytes),
      data.length = config.inputFiles.length → others.length = other.inputFiles.length →
      (∀ bytes ∈ data ++ others, bytes.length < 2 ^ 64) →
      message config (config.inputFiles.zip data) = message other (other.inputFiles.zip others) →
      config = other ∧ data = others := by
  constructor
  · intro tree config digest
    rw [compute, bind_ok_iff]
    constructor
    · rintro ⟨contents, found, given⟩
      obtain ⟨data, read, rfl⟩ := inputContents_ok_iff.mp found
      exact ⟨data, read, ((pure_ok_iff _ _).mp given).symm⟩
    · rintro ⟨data, read, rfl⟩
      exact ⟨_, inputContents_ok_iff.mpr ⟨data, read, rfl⟩, rfl⟩
  · intro config other data others length otherLength measured same
    -- The contents are listed with the paths, which are part of the configuration.
    have files : (config.inputFiles.zip data).map Prod.fst = config.inputFiles :=
      List.map_fst_zip length.ge
    have otherFiles : (other.inputFiles.zip others).map Prod.fst = other.inputFiles :=
      List.map_fst_zip otherLength.ge
    have fits : Measured (config.inputFiles.zip data) := by
      intro file member
      exact measured file.2 (List.mem_append_left _ (List.of_mem_zip member).2)
    have otherFits : Measured (other.inputFiles.zip others) := by
      intro file member
      exact measured file.2 (List.mem_append_right _ (List.of_mem_zip member).2)
    obtain ⟨rfl, contents⟩ := message_inj files otherFiles fits otherFits same
    refine ⟨rfl, ?_⟩
    rw [← List.map_snd_zip length.le, contents, List.map_snd_zip otherLength.le]

/-- The same file is listed twice. -/
def listedTwice : RunConfig := { input := ⟨"a"⟩, mapping := ⟨"a"⟩ }

/-- No byte moves from one file to the next, even if it looks like the path between them. -/
theorem compute_message_injective_listedTwice :
    (listedTwice = { listedTwice with usesCache := true } ∧
      ([[0x61], []] : List Bytes) = [[0x61], []]) ∧
    message listedTwice (listedTwice.inputFiles.zip [[0x61], []]) ≠
      message listedTwice (listedTwice.inputFiles.zip [[], [0x61]]) := by
  obtain ⟨-, injective⟩ := compute_message_injective
  constructor
  · exact injective listedTwice { listedTwice with usesCache := true } [[0x61], []] [[0x61], []] rfl rfl
      (by decide) rfl
  · intro same
    have moved := (injective listedTwice listedTwice [[0x61], []] [[], [0x61]] rfl rfl (by decide) same).2
    exact absurd moved (by decide)

end Fingerprint

end JarRemap
