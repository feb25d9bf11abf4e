import JarRemap.Proofs.Json.Record
import JarRemap.Run.Config

/-!
# Configurations in JSON

A configuration is read back from its JSON as it was, whatever is absent in it. So no two
configurations have the same JSON.
-/

namespace JarRemap.RunConfig

open Json (Lossless lossless_text lossless_bool bind_some_of)

theorem lossless_path : Lossless pathJson asPath where
  whole path := .text path.text
  reads _ := rfl
  proper := by simp [pathJson, Json.text]

theorem lossless_paths : Lossless pathsJson (Json.asList asPath) := lossless_path.list

/-- A configuration is what its JSON is read as. -/
theorem lossless : Lossless toJson ofJson? where
  whole config := by
    apply Json.whole_of_fields
    simp only [List.forall_mem_cons]
    exact ⟨lossless_path.whole_required _, lossless_path.whole_required _,
      lossless_paths.whole_required _, lossless_paths.whole_required _,
      lossless_paths.whole_required _, lossless_path.whole_optional _,
      lossless_path.whole_required _, lossless_path.whole_optional _,
      lossless_bool.whole_required _, lossless_bool.whole_required _,
      lossless_bool.whole_required _, lossless_text.whole_optional _,
      lossless_path.whole_optional _, by simp⟩
  reads config := by
    have names : fieldNames.Nodup := by decide
    refine bind_some_of (Json.fields?_record names fun _ member => member) ?_
    -- The fields in the order in which they are written.
    refine bind_some_of (lossless_path.withDefault names rfl) ?_
    refine bind_some_of (lossless_path.withDefault names rfl) ?_
    refine bind_some_of (lossless_paths.withDefault names rfl) ?_
    refine bind_some_of (lossless_paths.withDefault names rfl) ?_
    refine bind_some_of (lossless_paths.withDefault names rfl) ?_
    refine bind_some_of (lossless_path.optional names rfl) ?_
    refine bind_some_of (lossless_path.withDefault names rfl) ?_
    refine bind_some_of (lossless_path.optional names rfl) ?_
    refine bind_some_of (lossless_bool.withDefault names rfl) ?_
    refine bind_some_of (lossless_bool.withDefault names rfl) ?_
    refine bind_some_of (lossless_bool.withDefault names rfl) ?_
    refine bind_some_of (lossless_text.optional names rfl) ?_
    refine bind_some_of (lossless_path.optional names rfl) ?_
    rfl
  proper config := Json.record_proper _

/-- Different configurations have different JSON. -/
theorem toJson_injective : Function.Injective toJson := by
  intro config other same
  apply Option.some.inj
  rw [← lossless.reads config, ← lossless.reads other, same]

end JarRemap.RunConfig
