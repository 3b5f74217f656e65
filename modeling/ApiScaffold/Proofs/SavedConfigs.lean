import ApiScaffold.Config.File
import ApiScaffold.Proofs.ReadSettings
import ApiScaffold.Proofs.Trees

set_option autoImplicit false

/-! # Saved configurations

A configuration is saved as the settings that have a value, under their names. Only the directory of
the templates can lack one, and it has none to begin with; so the fields that are saved make the
configuration again (`ofFields_settings`), and a configuration that was saved in TOML is the one
that is loaded, provided that reading undoes the writing of the settings (`load_save`). It does when
their texts need no escapes (`Plain.undoes`). -/

namespace ApiScaffold

open Files (Tree)

namespace Setting

/-- Whether a value is of the type that a setting is declared with: a text for a directory, which
the one of the templates can lack, and a truth value for all else. -/
def fits (s : Setting) (value : Json) : Bool :=
  match s, value with
  | specsDir, .str _ | outputDir, .str _ | templateDir, .str _ | templateDir, .null => true
  | specsDir, _ | outputDir, _ | templateDir, _ => false
  | _, .bool _ => true
  | _, _ => false

theorem mem_all (s : Setting) : s ∈ all := by
  cases s <;> decide

theorem ofKey?_name (s : Setting) : ofKey? s.name = some s := by
  cases s <;> decide

/-- Only the directory of the templates can be without a value. -/
theorem fits_cases {s : Setting} {value : Json} (h : s.fits value = true) :
    Toml.isSimple value = true ∨ s = templateDir ∧ value = .null := by
  unfold fits at h
  split at h <;> simp_all [Toml.isSimple]

end Setting

namespace Config

variable {c : Config}

/-- Every setting has a value of its type. -/
def Typed (c : Config) : Prop := ∀ s ∈ Setting.all, s.fits (c.get s) = true

instance (c : Config) : Decidable c.Typed :=
  inferInstanceAs (Decidable (∀ s ∈ Setting.all, s.fits (c.get s) = true))

/-- The settings that are saved: those with a value. -/
def settings (c : Config) : Fields := c.toFields.filter (·.2 != .null)

theorem text_eq (c : Config) : c.text = Toml.write c.settings := rfl

theorem eq_of_get {d : Config} (h : ∀ s, c.get s = d.get s) : c = d := by
  cases c
  cases d
  simp only [mk.injEq]
  exact ⟨h .specsDir, h .outputDir, h .generateControllers, h .generateDtos, h .generateServices,
    h .templateDir, h .includeErrorTypes, h .synthesizeResponses, h .strict⟩

theorem mem_settings {f : String × Json} (h : f ∈ c.settings) :
    ∃ s, f = (s.name, c.get s) ∧ c.get s ≠ .null := by
  obtain ⟨hfield, hvalue⟩ := List.mem_filter.mp h
  obtain ⟨s, -, rfl⟩ := List.mem_map.mp hfield
  exact ⟨s, rfl, by simpa using hvalue⟩

/-! ## Back from fields -/

theorem lifted_of_notMem {data : Fields} (h : ∀ f ∈ data, f.1 ≠ "generatorOptions")
    (h' : ∀ f ∈ data, f.1 ≠ "generator_options") : lifted data = data := by
  have hno : ∀ {key : String}, (∀ f ∈ data, f.1 ≠ key) →
      data.lookup key = none ∧ data.filter (·.1 != key) = data := by
    intro key hkey
    refine ⟨List.lookup_eq_none_iff.mpr fun f hf => ?_, List.filter_eq_self.mpr fun f hf => ?_⟩
    · simpa using (hkey f hf).symm
    · simpa using hkey f hf
  obtain ⟨hlookup, hfilter⟩ := hno h
  obtain ⟨hlookup', hfilter'⟩ := hno h'
  unfold lifted
  rw [hlookup, hfilter]
  dsimp only
  rw [hlookup', hfilter']
  rfl

theorem get_foldl_set (values : Setting → Json) (l : List Setting) (d : Config) (r : Setting) :
    (l.foldl (fun known s => known.set s (values s)) d).get r =
      if r ∈ l then values r else d.get r := by
  induction l generalizing d with
  | nil => rfl
  | cons s l ih =>
      rw [List.foldl_cons, ih]
      by_cases hr : r ∈ l
      · simp [hr]
      · by_cases hs : r = s
        · subst hs
          simp [hr, get_set_self]
        · simp [hr, hs, get_set_of_ne _ hs]

theorem lifted_settings (c : Config) : lifted c.settings = c.settings := by
  have hnames : ∀ s ∈ Setting.all, s.name ≠ "generatorOptions" ∧ s.name ≠ "generator_options" := by
    decide
  refine lifted_of_notMem (fun f hf => ?_) fun f hf => ?_
  · obtain ⟨s, rfl, -⟩ := mem_settings hf
    exact (hnames s s.mem_all).1
  · obtain ⟨s, rfl, -⟩ := mem_settings hf
    exact (hnames s s.mem_all).2

/-- Left out is only what a configuration has no value for to begin with. -/
theorem ofFields_settings (h : c.Typed) : ofFields c.settings = c := by
  -- each field names its setting, so the fields give the settings with a value their values
  have hset : ∀ d : Config, c.settings.foldl setField d =
      (Setting.all.filter fun s => c.get s != .null).foldl
        (fun known s => known.set s (c.get s)) d := by
    intro d
    rw [settings, toFields, List.filter_map, List.foldl_map]
    congr 1
    funext known s
    rw [setField, Setting.ofKey?_name]
  refine eq_of_get fun s => ?_
  rw [ofFields, lifted_settings, hset, get_foldl_set]
  split
  · rfl
  · next hnot =>
      have hnull : c.get s = .null := by simpa [s.mem_all] using hnot
      obtain hsimple | ⟨rfl, -⟩ := Setting.fits_cases (h s s.mem_all)
      · rw [hnull] at hsimple
        cases hsimple
      · exact hnull.symm

theorem isSimple_settings (h : c.Typed) : ∀ f ∈ c.settings, Toml.isSimple f.2 = true := by
  intro f hf
  obtain ⟨s, rfl, hvalue⟩ := mem_settings hf
  exact (Setting.fits_cases (h s s.mem_all)).resolve_right fun hnull => hvalue hnull.2

/-- Whether no text of a configuration needs escapes. -/
def Plain (c : Config) : Prop :=
  ∀ s ∈ Setting.all, ∀ text, c.get s = .str text → Toml.isPlain text = true

theorem Plain.isPlainSetting (hplain : c.Plain) (htyped : c.Typed) :
    ∀ f ∈ c.settings, Toml.isPlainSetting f = true := by
  have hbare : ∀ s ∈ Setting.all, Toml.isBare s.name = true := by decide
  intro f hf
  have hsimple := isSimple_settings htyped f hf
  obtain ⟨s, rfl, -⟩ := mem_settings hf
  rw [Toml.isPlainSetting, hbare s s.mem_all, Bool.true_and]
  obtain ⟨text, htext⟩ | ⟨b, hb⟩ := Toml.isSimple_cases hsimple
  · rw [htext]
    exact hplain s s.mem_all text htext
  · rw [hb]

theorem nodup_settings (c : Config) : (c.settings.map (·.1)).Nodup := by
  have hnames : (Setting.all.map Setting.name).Nodup := by decide
  have hfields : c.toFields.map (·.1) = Setting.all.map Setting.name := by
    rw [toFields, List.map_map]
    rfl
  exact (hfields ▸ List.filter_sublist.map _).nodup hnames

/-- Settings whose texts need no escapes are read as they were written. -/
theorem Plain.undoes (hplain : c.Plain) (htyped : c.Typed) : Toml.Undoes c.settings :=
  Toml.undoes_of_plain (hplain.isPlainSetting htyped) (nodup_settings c)

/-! ## Files -/

section Files

variable {t u : Tree} {path : String}

theorem pathIn_of_has (h : u.has path = true) : pathIn u path "" = path := by
  simp [pathIn, h]

/-- What is saved in TOML can be loaded again from where it was saved to. -/
theorem load_saved (htyped : c.Typed) (hpath : Text.finishesWith ".json" path = false)
    (hsave : t.save path c.text = (u, .ok ())) (htoml : Toml.Undoes c.settings)
    {given dir : String} (hfound : pathIn u given dir = path) :
    load u given dir = .ok (some c) := by
  obtain ⟨text, htext, hwrite⟩ := Tree.save_eq_ok hsave
  have hreturn := Toml.return_notMem_write (isSimple_settings htyped) htext
  have hread := Tree.read_write hwrite hreturn
  have hparse : parse path text = .ok (.obj c.settings) := by
    rw [parse, if_neg (by simp [hpath]), htoml text htext]
    rfl
  have hhas := Tree.has_of_write hwrite
  simp only [load, hfound, hhas, hread, hparse, ofFields_settings htyped, Bool.not_true,
    Bool.false_eq_true, if_false]
  rfl

/-- What a configuration of values of the right types is saved as in TOML makes the configuration
again, without a group of options to lift; and wherever it is looked for, if it is found, it is the
configuration that is loaded, provided that reading undoes the writing of its settings. -/
theorem load_save (htyped : c.Typed) (hpath : Text.finishesWith ".json" path = false)
    (hsave : t.save path c.text = (u, .ok ())) (htoml : Toml.Undoes c.settings) :
    lifted c.settings = c.settings ∧ ofFields c.settings = c ∧ load u path "" = .ok (some c) ∧
      ∀ given dir, pathIn u given dir = path → load u given dir = .ok (some c) := by
  refine ⟨lifted_settings c, ofFields_settings htyped, ?_, fun given dir hfound => ?_⟩
  · obtain ⟨text, -, hwrite⟩ := Tree.save_eq_ok hsave
    exact load_saved htyped hpath hsave htoml (pathIn_of_has (Tree.has_of_write hwrite))
  · exact load_saved htyped hpath hsave htoml hfound

/-- The configuration of a shop that has its own templates. -/
def shop : Config := { outputDir := .str "./out", templateDir := .str "./templates" }

theorem shop_reloaded :
    ∃ u, ({} : Tree).save "shop.toml" shop.text = (u, .ok ()) ∧ shop.Typed ∧
      Text.finishesWith ".json" "shop.toml" = false ∧ Toml.Undoes shop.settings ∧
      load u "shop.toml" "" = .ok (some shop) := by
  have htyped : shop.Typed := by decide
  have hpath : Text.finishesWith ".json" "shop.toml" = false := by decide
  have hplain : shop.Plain := by
    intro s _ text htext
    cases s <;> cases htext <;> decide
  have hwhole : (shop.settings.any fun f =>
      (Toml.plainLine f ++ ['\n']).any (Text.half? · |>.isSome)) = false := by
    decide
  have hundoes : Toml.Undoes shop.settings := hplain.undoes htyped
  have hsave : ∃ u, ({} : Tree).save "shop.toml" shop.text = (u, .ok ()) := by
    rw [text_eq, Toml.write_of_plain (hplain.isPlainSetting htyped)]
    refine ⟨_, Tree.save_of_write ?_ rfl⟩
    rw [String.toList_ofList, List.any_flatMap]
    exact hwhole
  obtain ⟨u, hsave⟩ := hsave
  exact ⟨u, hsave, htyped, hpath, hundoes, (load_save htyped hpath hsave hundoes).2.2.1⟩

end Files

end Config

end ApiScaffold
