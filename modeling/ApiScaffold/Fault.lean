set_option autoImplicit false

/-! # Faults

What can stop the work, by cause. The faults of the tool itself have a text for the user; the others
say only which rule a document, a file or a template broke. -/

namespace ApiScaffold

/-- What went wrong with a file or a directory. -/
inductive FileFault where
  | missing
  | alreadyThere
  | isDirectory
  | notDirectory
deriving DecidableEq, Repr, Inhabited

/-- A complaint of the tool itself. -/
inductive Complaint where
  /-- Any text. -/
  | general (message : String)
  /-- The specification cannot be read or is not well formed; the detail says why. -/
  | unreadableSpec (detail : String)
  /-- The specification is well formed, but describes no API. -/
  | notASpec
  /-- A reference leads nowhere. -/
  | unresolved (pointer : String)
  /-- A model that is needed has no schema. -/
  | missingSchema (model : String)
  /-- Neither the user nor the tool has a template of this name. -/
  | missingTemplate (name : String) (directory : Option String)
  /-- The configuration file cannot be read or is not well formed; the detail says why. -/
  | unreadableConfig (detail : String)
  /-- The configuration file holds no object. -/
  | configNotAnObject
  /-- The configuration file that was asked for is not there. -/
  | configNotFound
deriving DecidableEq, Repr, Inhabited

/-- The text of a complaint, without the file that it is about. -/
def Complaint.text : Complaint → String
  | .general message => message
  | .unreadableSpec detail => "Failed to parse OpenAPI spec: " ++ detail
  | .notASpec =>
    "Failed to parse OpenAPI spec: документ не является OpenAPI спецификацией"
  | .unresolved pointer => "Не удалось разрешить ссылку '" ++ pointer ++ "'"
  | .missingSchema model => "Нет схемы для модели '" ++ model ++ "'"
  | .missingTemplate name directory =>
    let place :=
      match directory with
      | some dir => if dir = "" then "" else " (директория " ++ dir ++ ")"
      | none => ""
    "Шаблон '" ++ name ++ "' не найден" ++ place
  | .unreadableConfig detail => "Некорректный файл конфигурации: " ++ detail
  | .configNotAnObject => "Конфигурация должна быть объектом"
  | .configNotFound => "Файл конфигурации не найден"

/-- The kinds of records that descriptions are made of. -/
inductive RecordKind where
  | constraint
  | property
  | model
  | enumMember
  | enumeration
  | parameter
  | body
  | response
  | endpoint
  | controller
  | service
  | modelBatch
  | generation
  | codeFile
  | project
deriving DecidableEq, Repr, Inhabited

/-- The name of a kind of records. -/
def RecordKind.name : RecordKind → String
  | .constraint => "ValidationConstraint"
  | .property => "PropertyDescriptor"
  | .model => "ModelDescriptor"
  | .enumMember => "EnumValue"
  | .enumeration => "EnumDescriptor"
  | .parameter => "ParameterDescriptor"
  | .body => "BodyDescriptor"
  | .response => "ResponseDescriptor"
  | .endpoint => "EndpointDescriptor"
  | .controller => "ControllerDescriptor"
  | .service => "ServiceDescriptor"
  | .modelBatch => "ModelBatch"
  | .generation => "GenerationBatch"
  | .codeFile => "CodeFile"
  | .project => "Project"

/-- A reason why the work stopped. -/
inductive Fault where
  /-- A value other than an object was asked for a field, or one other than a text for its case. -/
  | lacksPart
  /-- A value is of a kind that the step cannot use: a number that should be gone through, a list
  that should be a key, a list that should be a text. -/
  | unfit
  /-- A fixed table has no entry for the key. -/
  | unknownKey
  /-- A text of digits is not a numeral. -/
  | notANumeral
  /-- A text or a list ends before the part that is needed. -/
  | beyondEnd
  /-- A number is beyond what a character can have as its code. -/
  | tooLarge
  /-- A text holds half of a surrogate pair, which has no place in a file. -/
  | halfCharacter
  /-- A value is asked for that was never made. -/
  | neverMade
  /-- A reference of a linked document that was followed leads nowhere. -/
  | brokenLink
  /-- A descent through a document never ends. -/
  | endless
  /-- A template uses a name that its context lacks. -/
  | undefinedName
  /-- A file or directory is not as it should be. -/
  | file (cause : FileFault)
  /-- A record was given fields that are missing or of the wrong type; their paths are sorted. -/
  | invalidRecord (record : RecordKind) (paths : List String)
  /-- The tool complains, perhaps about a file. -/
  | complaint (what : Complaint) (about : Option String)
deriving DecidableEq, Repr, Inhabited

/-- The text of a complaint, with the file that it is about in brackets in front. -/
def Complaint.textAbout (what : Complaint) (about : Option String) : String :=
  match about with
  | some file => if file = "" then what.text else "[" ++ file ++ "] " ++ what.text
  | none => what.text

/-- The text of a fault for the user. -/
def Fault.text : Fault → String
  | .lacksPart => "value has no such part"
  | .unfit => "value is of the wrong kind"
  | .unknownKey => "unknown key"
  | .notANumeral => "not a numeral"
  | .beyondEnd => "ends too early"
  | .tooLarge => "number too large"
  | .halfCharacter => "half of a surrogate pair"
  | .neverMade => "value was never made"
  | .brokenLink => "broken reference"
  | .endless => "document nests without end"
  | .undefinedName => "undefined name in template"
  | .file .missing => "no such file or directory"
  | .file .alreadyThere => "file exists"
  | .file .isDirectory => "is a directory"
  | .file .notDirectory => "not a directory"
  | .invalidRecord _ paths => "invalid fields: " ++ ", ".intercalate paths
  | .complaint what about => what.textAbout about

end ApiScaffold
