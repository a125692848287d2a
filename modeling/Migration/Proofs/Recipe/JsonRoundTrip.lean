import Mathlib.Data.List.Nodup
import Migration.Proofs.Tree.JsonRoundTrip
import Migration.Recipe.Manifest

/-!
# Manifests survive their JSON values

A recipe is written as an object that starts with its kind, and its other fields are those of a record
none of whose fields is repeated (`record_obj`, `kindAndFields_obj`). The two decoders for recipes differ
in how they read a kind, and both take the name of one (`recipeOf_reads`); the recipes inside a pipeline
are less deep than it, so `fix_reads` carries the round trip over to pipelines of all depths.

Main result: a manifest is read back from its JSON value, and what is built from it is the same
(`Manifest.build_ofJson_toJson`).
-/

namespace Migration

open Json

namespace Decoder

/-! ### Records and kinds -/

/-- A name that is not repeated among the keys is found at most once. -/
theorem length_filter_le_one {pairs : List (String × Json)} (h : (pairs.map Prod.fst).Nodup)
    (name : String) : (pairs.filter (·.1 == name)).length ≤ 1 := by
  have hcount := List.nodup_iff_count_le_one.mp h name
  rwa [List.count, List.countP_map, List.countP_eq_length_filter] at hcount

/-- The fields of a record, some of which may be left out. -/
theorem record_obj {names : List String} {pairs : List (String × Json)} (hnames : names.Nodup)
    (hkeys : (pairs.map Prod.fst).Sublist names) :
    record names (.obj pairs) = some (lookup pairs) := by
  have hall : (names.all fun name => (pairs.filter (·.1 == name)).length ≤ 1) = true :=
    List.all_eq_true.mpr fun name _ =>
      decide_eq_true (length_filter_le_one (hkeys.nodup hnames) name)
  rw [record, if_pos hall, fields_obj hnames hkeys]

/-- The kind of a recipe is taken off its other fields. -/
theorem kindAndFields_obj {kind : Json} {pairs : List (String × Json)}
    (h : ∀ key ∈ pairs.map Prod.fst, key ≠ "type") :
    kindAndFields (.obj (("type", kind) :: pairs)) = some (kind, .obj pairs) := by
  have hne (pair : String × Json) (hpair : pair ∈ pairs) : pair.1 ≠ "type" :=
    h pair.1 (List.mem_map_of_mem hpair)
  have hkind : (("type", kind) :: pairs).filter (·.1 == "type") = [("type", kind)] := by
    rw [List.filter_cons_of_pos (by simp), List.filter_eq_nil_iff.mpr]
    intro pair hpair
    simp [hne pair hpair]
  have hrest : (("type", kind) :: pairs).filter (·.1 != "type") = pairs := by
    rw [List.filter_cons_of_neg (by simp), List.filter_eq_self]
    intro pair hpair
    simp [hne pair hpair]
  rw [kindAndFields, hkind, hrest]

/-! ### Recipes -/

theorem constantMapping_fields (m : ConstantMapping) : constantMapping (.obj m.fields) = some m := by
  simp [constantMapping, ConstantMapping.fields, record_obj]

theorem toJsonAll_recipes (specs : List RecipeSpec) :
    .arr (RecipeSpec.toJsonAll specs) = ofList RecipeSpec.toJson specs := by
  induction specs with
  | nil => rfl
  | cons spec specs ih =>
    rw [RecipeSpec.toJsonAll, Json.arr.inj ih]
    rfl

/-- **A recipe is read back** when the recipes inside it are, however the kinds of these are read. -/
theorem recipeOf_reads {kind : Decoder String} (hkind : ∀ name, kind (.str name) = some name)
    (self : Decoder RecipeSpec) (spec : RecipeSpec)
    (h : ReadsBelow RecipeSpec.toJson self spec.toJson) : recipeOf kind self spec.toJson = some spec := by
  cases spec with
  | changeSupertype old new =>
    simp [recipeOf, RecipeSpec.toJson, kindAndFields_obj, hkind, record_obj]
  | changeConstant mapping =>
    have hkeys : ∀ key ∈ mapping.fields.map Prod.fst, key ≠ "type" := by
      simp [ConstantMapping.fields]
    simp [recipeOf, RecipeSpec.toJson, kindAndFields_obj hkeys, hkind, constantMapping_fields]
  | changeConstants mappings =>
    have hmappings : list constantMapping (.arr (mappings.map ConstantMapping.toJson)) = some mappings :=
      list_reads fun m _ => constantMapping_fields m
    simp [recipeOf, RecipeSpec.toJson, kindAndFields_obj, hkind, record_obj, hmappings]
  | pipeline name recipes =>
    rw [RecipeSpec.toJson, toJsonAll_recipes] at h ⊢
    have hbelow : ReadsBelow RecipeSpec.toJson self (ofList RecipeSpec.toJson recipes) :=
      h.mono (depth_lt_obj "units" (by simp))
    have hrecipes : list self (ofList RecipeSpec.toJson recipes) = some recipes :=
      list_reads fun spec hspec => hbelow spec (depth_lt_arr (List.mem_map_of_mem hspec))
    cases name <;> simp [recipeOf, optField, kindAndFields_obj, hkind, record_obj, hrecipes]

theorem innerKindName_str (name : String) : innerKindName (.str name) = some name := rfl

/-- A recipe is read back inside a pipeline, whatever is inside it. -/
theorem innerRecipe_reads (spec : RecipeSpec) : innerRecipe spec.toJson = some spec :=
  fix_reads (recipeOf_reads innerKindName_str) spec

theorem recipe_reads (spec : RecipeSpec) : recipe spec.toJson = some spec :=
  recipeOf_reads str_str innerRecipe spec fun inner _ => innerRecipe_reads inner

theorem manifest_reads (m : Manifest) : manifest m.toJson = some m := by
  obtain ⟨name, recipes⟩ := m
  have hrecipes : list recipe (.arr (RecipeSpec.toJsonAll recipes)) = some recipes := by
    rw [toJsonAll_recipes]
    exact list_reads fun spec _ => recipe_reads spec
  cases name <;>
    simp [manifest, manifest.onlyFields, guard, Manifest.toJson, optField, record_obj, hrecipes]

end Decoder

/-- **A manifest survives its JSON value.** It is read back as it was, a name that is not given being left
out and not `null`; and what is built from it has the same names, descriptions and recipes inside. -/
theorem Manifest.build_ofJson_toJson (m : Manifest) :
    m.toJson.get? "name" = m.name.map .str ∧
    ∃ m', Manifest.ofJson? m.toJson = some m' ∧ m' = m ∧
      m'.build.map Recipe.toInfo = m.build.map Recipe.toInfo := by
  refine ⟨?_, m, Decoder.manifest_reads m, rfl, rfl⟩
  rw [toJson]
  cases m.name <;> simp [get?, optField]

end Migration
