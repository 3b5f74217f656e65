import ApiScaffold.Json.Value

set_option autoImplicit false

/-! # Configurations

A configuration gives each setting a value. Values are kept as they were written, of whatever kind;
what they mean is decided where they are used. In a file a setting has a name in words joined by
underscores, and most have a second one in words joined by capitals. -/

namespace ApiScaffold

/-- What can be set. -/
inductive Setting where
  | specsDir
  | outputDir
  | generateControllers
  | generateDtos
  | generateServices
  | templateDir
  | includeErrorTypes
  | synthesizeResponses
  | strict
deriving DecidableEq, Repr

namespace Setting

/-- All settings, in the order in which they are written. -/
def all : List Setting :=
  [specsDir, outputDir, generateControllers, generateDtos, generateServices, templateDir,
    includeErrorTypes, synthesizeResponses, strict]

/-- The name of a setting in a file. -/
def name : Setting → String
  | specsDir => "specs_dir"
  | outputDir => "output_dir"
  | generateControllers => "generate_controllers"
  | generateDtos => "generate_dtos"
  | generateServices => "generate_services"
  | templateDir => "template_dir"
  | includeErrorTypes => "include_error_types_in_return_type"
  | synthesizeResponses => "synthesize_response_dtos"
  | strict => "strict"

/-- The second name of a setting, if it has one. -/
def secondName? : Setting → Option String
  | specsDir => some "specsDir"
  | outputDir => some "outputDir"
  | generateControllers => some "generateControllers"
  | generateDtos => some "generateDtos"
  | generateServices => some "generateServices"
  | templateDir => some "templateDir"
  | includeErrorTypes => some "includeErrorTypesInReturnType"
  | synthesizeResponses => some "synthesizeResponseDtos"
  | strict => none

/-- The setting that a key of a file names. -/
def ofKey? (key : String) : Option Setting :=
  all.find? fun s => s.name == key || s.secondName? == some key

end Setting

/-- The value of every setting. -/
structure Config where
  specsDir : Json := .str "./specs"
  outputDir : Json := .str "./src/generated"
  generateControllers : Json := .bool true
  generateDtos : Json := .bool true
  generateServices : Json := .bool false
  templateDir : Json := .null
  includeErrorTypes : Json := .bool false
  synthesizeResponses : Json := .bool true
  strict : Json := .bool false
deriving DecidableEq, Repr, Inhabited

namespace Config

/-- The value of a setting. -/
def get (c : Config) : Setting → Json
  | .specsDir => c.specsDir
  | .outputDir => c.outputDir
  | .generateControllers => c.generateControllers
  | .generateDtos => c.generateDtos
  | .generateServices => c.generateServices
  | .templateDir => c.templateDir
  | .includeErrorTypes => c.includeErrorTypes
  | .synthesizeResponses => c.synthesizeResponses
  | .strict => c.strict

/-- Give a setting another value. -/
def set (c : Config) (s : Setting) (value : Json) : Config :=
  match s with
  | .specsDir => { c with specsDir := value }
  | .outputDir => { c with outputDir := value }
  | .generateControllers => { c with generateControllers := value }
  | .generateDtos => { c with generateDtos := value }
  | .generateServices => { c with generateServices := value }
  | .templateDir => { c with templateDir := value }
  | .includeErrorTypes => { c with includeErrorTypes := value }
  | .synthesizeResponses => { c with synthesizeResponses := value }
  | .strict => { c with strict := value }

theorem get_set_self (c : Config) (s : Setting) (value : Json) : (c.set s value).get s = value := by
  cases s <;> rfl

theorem get_set_of_ne (c : Config) {s r : Setting} (h : r ≠ s) (value : Json) :
    (c.set s value).get r = c.get r := by
  cases s <;> cases r <;> first | rfl | exact absurd rfl h

/-! ## Fields -/

/-- All settings by name with their values. -/
def toFields (c : Config) : Fields :=
  Setting.all.map fun s => (s.name, c.get s)

/-- The fields of a file with its group of options lifted to the top, where they take precedence.
The group has one of two names; the second counts if there is nothing under the first. -/
def lifted (data : Fields) : Fields :=
  let options := (data.lookup "generatorOptions").getD .null
  let others := data.filter (·.1 != "generatorOptions")
  -- the second name is left alone, as a key without meaning, when the first one counts
  let (options, others) :=
    if options.truthy then (options, others)
    else
      ((others.lookup "generator_options").getD .null,
        others.filter (·.1 != "generator_options"))
  match options with
  | .obj fields => fields.foldl (fun known f => Json.insertField f.1 f.2 known) others
  | _ => others

/-- Give the setting that a field names the field's value; other fields do not count. -/
def setField (c : Config) (field : String × Json) : Config :=
  match Setting.ofKey? field.1 with
  | some s => c.set s field.2
  | none => c

/-- The configuration that the fields of a file make; of two that name one setting the later one
counts. -/
def ofFields (data : Fields) : Config :=
  (lifted data).foldl setField {}

/-- The configuration with the directories that were asked for; a value that counts as false asks
for nothing. -/
def withDirectories (c : Config) (specs output : Json) : Config :=
  let c := if specs.truthy then c.set .specsDir specs else c
  if output.truthy then c.set .outputDir output else c

end Config

end ApiScaffold
