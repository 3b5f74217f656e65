import ApiScaffold.Proofs.SavedConfigs

set_option autoImplicit false

/-! # Options lifted to the top

A setting has the value of the last field that names it. To lift an option is to put it in the place
of the field of its key, or behind all fields if there is none; so an option takes precedence over
what the top says about its setting, unless a field of another key that names the setting stands
behind that place (`ofFields_options`). Keys that name no setting do not count, neither at the top
nor in the group. -/

namespace ApiScaffold

/-! ## Fields and keys -/

namespace Json

variable {key : String} {value : Json} {fields : Fields}

/-- The fields behind the first one of a key. -/
def behind (key : String) (fields : Fields) : Fields :=
  (fields.dropWhile (·.1 != key)).tail

theorem behind_cons_self (value : Json) (fields : Fields) :
    behind key ((key, value) :: fields) = fields := by
  simp [behind]

theorem behind_cons_of_ne {f : String × Json} (h : f.1 ≠ key) (fields : Fields) :
    behind key (f :: fields) = behind key fields := by
  simp [behind, h]

theorem filter_behind {p : String → Bool} (h : p key = true) (fields : Fields) :
    (behind key fields).filter (fun f => p f.1) = behind key (fields.filter fun f => p f.1) := by
  induction fields with
  | nil => rfl
  | cons f rest ih =>
      obtain ⟨k, v⟩ := f
      by_cases hk : k = key
      · subst hk
        rw [behind_cons_self, List.filter_cons_of_pos (by simpa using h), behind_cons_self]
      · rw [behind_cons_of_ne hk, ih]
        cases hp : p k with
        | false => rw [List.filter_cons_of_neg (by simp [hp])]
        | true => rw [List.filter_cons_of_pos (by simpa using hp), behind_cons_of_ne hk]

/-- A field is behind a key just when the keys come in this order. -/
theorem exists_mem_behind_iff {other : String} :
    (∃ f ∈ behind key fields, f.1 = other) ↔ [key, other].Sublist (fields.map (·.1)) := by
  induction fields with
  | nil => simp [behind]
  | cons f rest ih =>
      obtain ⟨k, v⟩ := f
      rw [List.map_cons]
      by_cases hk : k = key
      · subst hk
        rw [behind_cons_self, List.cons_sublist_cons, List.singleton_sublist, List.mem_map]
      · rw [behind_cons_of_ne hk, ih, List.sublist_cons_iff]
        refine ⟨Or.inl, fun h => h.resolve_right ?_⟩
        rintro ⟨_, heq, -⟩
        exact hk (List.cons.inj heq).1.symm

/-- A field that is put where its key is, or last, is outdone by what stands behind the key. -/
theorem getLast?_insertField : (insertField key value fields).getLast? =
    some ((behind key fields).getLast?.getD (key, value)) := by
  induction fields with
  | nil => rfl
  | cons f rest ih =>
      obtain ⟨k, v⟩ := f
      rw [insertField]
      split
      · next hk =>
          subst hk
          rw [behind_cons_self, List.getLast?_cons]
      · next hk =>
          rw [behind_cons_of_ne hk, List.getLast?_cons, ih, Option.getD_some]

theorem filter_insertField (p : String → Bool) (key : String) (value : Json) (fields : Fields) :
    (insertField key value fields).filter (fun f => p f.1) =
      if p key then insertField key value (fields.filter fun f => p f.1)
      else fields.filter fun f => p f.1 := by
  induction fields with
  | nil => cases hp : p key <;> simp [insertField, hp]
  | cons f rest ih =>
      obtain ⟨k, v⟩ := f
      by_cases hk : k = key
      · subst hk
        cases hp : p k <;> simp [insertField, hp]
      · rw [insertField, if_neg hk, List.filter_cons, List.filter_cons, ih]
        cases hp : p key <;> cases hother : p k <;> simp [insertField, hk]

/-- Put some fields to others, one after the other. -/
def update (fields others : Fields) : Fields :=
  fields.foldl (fun known f => insertField f.1 f.2 known) others

theorem filter_update (p : String → Bool) (fields others : Fields) :
    (update fields others).filter (fun f => p f.1) =
      update (fields.filter fun f => p f.1) (others.filter fun f => p f.1) := by
  induction fields generalizing others with
  | nil => rfl
  | cons f rest ih =>
      rw [update, List.foldl_cons, ← update, ih, filter_insertField, List.filter_cons]
      split <;> rfl

theorem lookup_filter {p : String → Bool} (h : p key = true) (fields : Fields) :
    (fields.filter fun f => p f.1).lookup key = fields.lookup key := by
  induction fields with
  | nil => rfl
  | cons f rest ih =>
      obtain ⟨k, v⟩ := f
      by_cases hk : key = k
      · subst hk
        rw [List.filter_cons_of_pos (by simpa using h), List.lookup_cons, List.lookup_cons]
        simp
      · have hno : (key == k) = false := by simpa using hk
        rw [List.filter_cons]
        split <;> simp [List.lookup_cons, hno, ih]

end Json

namespace Config

open Json (behind update)

variable {data : Fields} {s : Setting}

/-! ## The field that counts -/

/-- The fields that name a setting. -/
def fieldsOf (s : Setting) (fields : Fields) : Fields :=
  fields.filter fun f => Setting.ofKey? f.1 == some s

/-- Of the fields that name a setting the last one counts. -/
theorem get_foldl_setField (fields : Fields) (c : Config) (s : Setting) :
    (fields.foldl setField c).get s = ((fieldsOf s fields).getLast?.map (·.2)).getD (c.get s) := by
  induction fields generalizing c with
  | nil => rfl
  | cons f rest ih =>
      rw [List.foldl_cons, ih, fieldsOf, fieldsOf, List.filter_cons]
      by_cases hs : Setting.ofKey? f.1 = some s
      · have hset : (setField c f).get s = f.2 := by
          rw [setField, hs]
          exact get_set_self c s f.2
        rw [if_pos (by simpa using hs), List.getLast?_cons, hset]
        cases (rest.filter fun f => Setting.ofKey? f.1 == some s).getLast? <;> rfl
      · have hset : (setField c f).get s = c.get s := by
          unfold setField
          split
          · next r hr =>
              refine get_set_of_ne c ?_ f.2
              rintro rfl
              exact hs hr
          · rfl
        rw [if_neg (by simpa using hs), hset]

/-! ## The group of options -/

/-- The names of the group of options. -/
def groupNames : List String := ["generatorOptions", "generator_options"]

/-- What stands under the name of the group that counts. -/
def group (data : Fields) : Json :=
  let first := (data.lookup "generatorOptions").getD .null
  if first.truthy then first else (data.lookup "generator_options").getD .null

/-- The options of the group that counts. -/
def options (data : Fields) : Fields :=
  match group data with
  | .obj fields => fields
  | _ => []

theorem lookup_filter_of_ne {name other : String} (h : name ≠ other) (fields : Fields) :
    (fields.filter (·.1 != other)).lookup name = fields.lookup name :=
  Json.lookup_filter (p := (· != other)) (by simpa using h) fields

/-- Lifting puts the options to what is left without the group. -/
theorem lifted_eq (data : Fields) : ∃ others, lifted data = update (options data) others ∧
    ∀ p : String → Bool, (∀ name ∈ groupNames, p name = false) →
      others.filter (fun f => p f.1) = data.filter fun f => p f.1 := by
  have hkept : ∀ {p : String → Bool} {name : String} (fields : Fields), p name = false →
      (fields.filter (·.1 != name)).filter (fun f => p f.1) = fields.filter fun f => p f.1 := by
    intro p name fields hname
    rw [List.filter_filter]
    refine List.filter_congr fun f _ => ?_
    by_cases hf : f.1 = name
    · simp [hf, hname]
    · simp [hf]
  have hput : ∀ (found : Json) (others : Fields), (match found with
      | .obj fields => update fields others
      | _ => others) = update (match found with
      | .obj fields => fields
      | _ => []) others := by
    intro found others
    cases found <;> rfl
  unfold lifted options group
  by_cases hfirst : ((data.lookup "generatorOptions").getD .null).truthy = true
  · simp only [if_pos hfirst]
    exact ⟨_, hput _ _, fun p hp => hkept data (hp "generatorOptions" (by decide))⟩
  · have hother : "generator_options" ≠ "generatorOptions" := by decide
    simp only [if_neg hfirst, lookup_filter_of_ne hother]
    refine ⟨_, hput _ _, fun p hp => ?_⟩
    rw [hkept _ (hp "generator_options" (by decide)),
      hkept data (hp "generatorOptions" (by decide))]

theorem ofKey?_groupNames : ∀ name ∈ groupNames, Setting.ofKey? name = none := by
  decide

/-- The fields that name a setting once the options are lifted: those at the top, with the options
for the setting put to them. -/
theorem fieldsOf_lifted (data : Fields) (s : Setting) :
    fieldsOf s (lifted data) = update (fieldsOf s (options data)) (fieldsOf s data) := by
  obtain ⟨others, hlifted, hothers⟩ := lifted_eq data
  have hrest := hothers (fun key => Setting.ofKey? key == some s)
    fun name hname => by simp [ofKey?_groupNames name hname]
  rw [hlifted, fieldsOf, Json.filter_update (fun key => Setting.ofKey? key == some s), hrest]
  rfl

theorem get_ofFields (data : Fields) (s : Setting) : (ofFields data).get s =
    ((update (fieldsOf s (options data)) (fieldsOf s data)).getLast?.map (·.2)).getD
      (({} : Config).get s) := by
  rw [ofFields, get_foldl_setField, fieldsOf_lifted]

/-! ## Keys without meaning -/

/-- Only the fields that name settings count, at the top and in the group. -/
theorem ofFields_congr {data' : Fields} (htop : ∀ s, fieldsOf s data' = fieldsOf s data)
    (hoptions : ∀ s, fieldsOf s (options data') = fieldsOf s (options data)) :
    ofFields data' = ofFields data :=
  eq_of_get fun s => by rw [get_ofFields, get_ofFields, htop, hoptions]

/-- Whether a key means something at the top: it names a setting or a group of options. -/
def counts (key : String) : Bool :=
  (Setting.ofKey? key).isSome || groupNames.contains key

theorem options_filter_counts (data : Fields) :
    options (data.filter fun f => counts f.1) = options data := by
  rw [options, group, Json.lookup_filter (p := counts) (by decide),
    Json.lookup_filter (p := counts) (by decide)]
  rfl

theorem fieldsOf_filter_counts (data : Fields) (s : Setting) :
    fieldsOf s (data.filter fun f => counts f.1) = fieldsOf s data := by
  rw [fieldsOf, List.filter_filter]
  refine List.filter_congr fun f _ => ?_
  by_cases hs : Setting.ofKey? f.1 = some s
  · simp [counts, hs]
  · simp [hs]

/-! ## Precedence -/

/-- The options under the first name count, if there are any. -/
theorem options_of_lookup {fields : Fields}
    (h : data.lookup "generatorOptions" = some (.obj fields)) (hsome : fields ≠ []) :
    options data = fields := by
  have htruthy : (Json.obj fields).truthy = true := by simpa [Json.truthy] using hsome
  rw [options, group, h]
  simp only [Option.getD_some, if_pos htruthy]

/-- What the top says about a setting behind a key, in the last place. -/
def outdoing? (s : Setting) (key : String) (data : Fields) : Option Json :=
  (fieldsOf s (behind key data)).getLast?.map (·.2)

theorem outdoing?_eq_none_iff {key : String} : outdoing? s key data = none ↔
    ∀ other, Setting.ofKey? other = some s → ¬[key, other].Sublist (data.map (·.1)) := by
  rw [outdoing?, Option.map_eq_none_iff, List.getLast?_eq_none_iff, fieldsOf,
    List.filter_eq_nil_iff]
  simp only [← Json.exists_mem_behind_iff, beq_iff_eq]
  constructor
  · rintro h other hother ⟨f, hf, rfl⟩
    exact h f hf hother
  · exact fun h f hf hname => h f.1 hname ⟨f, hf, rfl⟩

/-- The only option for a setting stands behind everything at the top but what is behind its key. -/
theorem get_ofFields_of_option {key : String} {value : Json}
    (hone : fieldsOf s (options data) = [(key, value)]) :
    (ofFields data).get s = (outdoing? s key data).getD value := by
  have hmem : (key, value) ∈ fieldsOf s (options data) := by simp [hone]
  have hbehind : fieldsOf s (behind key data) = behind key (fieldsOf s data) :=
    Json.filter_behind (p := fun key => Setting.ofKey? key == some s) (List.mem_filter.mp hmem).2
      data
  rw [get_ofFields, hone, update, List.foldl_cons, List.foldl_nil, Json.getLast?_insertField,
    outdoing?, hbehind]
  cases (behind key (fieldsOf s data)).getLast? <;> rfl

/-- If the group has one option for a setting, the setting has its value, unless at the top another
key that names the setting stands behind the key of the option: then the last of these counts. And
keys without meaning change nothing, neither at the top nor among the options. -/
theorem ofFields_options (data : Fields) :
    (∀ fields, data.lookup "generatorOptions" = some (.obj fields) → fields ≠ [] →
      options data = fields) ∧
    (∀ s key value, fieldsOf s (options data) = [(key, value)] →
      (ofFields data).get s = (outdoing? s key data).getD value ∧
        (outdoing? s key data = none ↔ ∀ other, Setting.ofKey? other = some s →
          ¬[key, other].Sublist (data.map (·.1)))) ∧
    ofFields (data.filter fun f => counts f.1) = ofFields data ∧
    ∀ data', (∀ s, fieldsOf s data' = fieldsOf s data) →
      (∀ s, fieldsOf s (options data') = fieldsOf s (options data)) →
      ofFields data' = ofFields data := by
  refine ⟨fun fields => options_of_lookup, fun s key value hone => ?_, ?_,
    fun data' => ofFields_congr⟩
  · exact ⟨get_ofFields_of_option hone, outdoing?_eq_none_iff⟩
  · exact ofFields_congr (fieldsOf_filter_counts data) fun s => by rw [options_filter_counts]

/-- A studio says twice where its code goes, and once more in its options. -/
def studio : Fields :=
  [("generatorOptions", .obj [("outputDir", .str "./made"), ("note", .int 1)]),
    ("output_dir", .str "./src"), ("outputDir", .str "./dist"), ("owner", .str "us")]

theorem studio_lifted :
    studio.lookup "generatorOptions" =
      some (.obj [("outputDir", .str "./made"), ("note", .int 1)]) ∧
    fieldsOf .outputDir (options studio) = [("outputDir", .str "./made")] ∧
    (ofFields studio).get .outputDir = .str "./made" := by
  have hone : fieldsOf .outputDir (options studio) = [("outputDir", .str "./made")] := by decide
  have hnone : outdoing? .outputDir "outputDir" studio = none := by decide
  refine ⟨rfl, hone, ?_⟩
  rw [((ofFields_options studio).2.1 _ _ _ hone).1, hnone]
  rfl

/-- A workshop says the same, but at the top the other name of the setting comes last. -/
def workshop : Fields :=
  [("generatorOptions", .obj [("outputDir", .str "./made")]), ("outputDir", .str "./dist"),
    ("output_dir", .str "./src")]

/-- The option of a workshop is outdone by what stands behind its place at the top. -/
theorem workshop_outdone :
    ¬∀ (data fields : Fields) (s : Setting) (key : String) (value : Json),
      (data.map (·.1)).Nodup → data.lookup "generatorOptions" = some (.obj fields) →
        fieldsOf s fields = [(key, value)] → (ofFields data).get s = value := by
  intro h
  have hmade : (ofFields workshop).get .outputDir = .str "./made" :=
    h workshop [("outputDir", .str "./made")] .outputDir "outputDir" _ (by decide) rfl (by decide)
  have hsrc : (ofFields workshop).get .outputDir = .str "./src" := by decide
  exact absurd (hsrc.symm.trans hmade) (by decide)

end Config

end ApiScaffold
