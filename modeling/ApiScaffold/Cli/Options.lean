import ApiScaffold.Text.Cut
import ApiScaffold.Text.Digits

set_option autoImplicit false

/-! # Command-line options

An option has a short and perhaps a long name. A long name can be cut short as long as it stays
clear which one is meant. A value stands behind an option as the next word, behind an equals sign,
or right behind a short name; short names without values can be joined. Anything else is refused. -/

namespace ApiScaffold.Cli

/-- The options. -/
inductive Flag where
  | help
  | config
  | specs
  | output
  | watch
  | initConfig
deriving DecidableEq, Repr, Inhabited

namespace Flag

/-- The names of the options. -/
def names : List (String × Flag) :=
  [("-h", help), ("--help", help), ("-c", config), ("--config", config), ("-s", specs),
    ("--specs", specs), ("-o", output), ("--output", output), ("-w", watch), ("--watch", watch),
    ("--init-config", initConfig)]

/-- Whether an option has a value. -/
def takesValue : Flag → Bool
  | config | specs | output => true
  | help | watch | initConfig => false

/-- What an option is for, in the words of the user. -/
def purpose : Flag → String
  | help => "Показать эту справку"
  | config => "Путь к файлу конфигурации"
  | specs => "Директория со спецификациями"
  | output => "Директория для сгенерированного кода"
  | watch => "Перегенерация при изменении спецификаций"
  | initConfig => "Создать конфиг файл"

/-- The names of all options with what they are for, a line each. -/
def summary : String :=
  "\n".intercalate (names.map fun n => "  " ++ n.1 ++ "  " ++ n.2.purpose)

end Flag

/-- What a command line asks for. -/
structure Options where
  config : Option String := none
  specs : Option String := none
  output : Option String := none
  watch : Bool := false
  initConfig : Bool := false
deriving DecidableEq, Repr, Inhabited

namespace Options

/-- Take in an option that has a value. -/
def setValue (o : Options) (flag : Flag) (value : String) : Options :=
  match flag with
  | .config => { o with config := some value }
  | .specs => { o with specs := some value }
  | .output => { o with output := some value }
  | _ => o

/-- Take in an option that has no value. -/
def turnOn (o : Options) (flag : Flag) : Options :=
  match flag with
  | .watch => { o with watch := true }
  | .initConfig => { o with initConfig := true }
  | _ => o

/-- Whether specifications are watched; writing a configuration goes before. -/
def watches (o : Options) : Bool :=
  o.watch && !o.initConfig

end Options

/-- A word of a command line. -/
inductive Word where
  | value (text : String)
  /-- An option; `isShort` tells whether its name has one dash, and `attached` is what stands right
  behind the name. -/
  | option (flag : Flag) (isShort : Bool) (attached : Option String)
  /-- Two dashes: only values follow. -/
  | divider
  /-- What looks like an option and is none. -/
  | unknown
  /-- What could be several options. -/
  | ambiguous
deriving DecidableEq, Repr, Inhabited

namespace Word

/-- Whether a text is a negative number; a line break may stand behind it. -/
def isNegativeNumber (text : String) : Bool :=
  match text.toList with
  | '-' :: body =>
    let digits := body.takeWhile fun c => (Text.digitValue? c).isSome
    match body.drop digits.length with
    | [] | ['\n'] => !digits.isEmpty
    | '.' :: rest =>
      let places := rest.takeWhile fun c => (Text.digitValue? c).isSome
      !places.isEmpty && (rest.drop places.length == [] || rest.drop places.length == ['\n'])
    | _ => false
  | _ => false

/-- A text up to the first equals sign, and what follows the sign. -/
def splitValue (text : String) : String × Option String :=
  match text.toList.dropWhile (· != '=') with
  | _ :: rest => (String.ofList (text.toList.takeWhile (· != '=')), some (String.ofList rest))
  | [] => (text, none)

/-- The options that a name cut short can mean, with what is attached to it. -/
def candidates (text : String) : List Word :=
  if Text.beginsWith "--" text then
    let (front, attached) := splitValue text
    (Flag.names.filter fun n => Text.beginsWith front n.1).map fun n => .option n.2 false attached
  else
    let short := String.ofList (text.toList.take 2)
    Flag.names.filterMap fun n =>
      if n.1 = short then some (.option n.2 true (some (String.ofList (text.toList.drop 2))))
      else if Text.beginsWith text n.1 then some (.option n.2 false none)
      else none

/-- What a word is that does not follow a divider. -/
def ofText (text : String) : Word :=
  let isShort (name : String) : Bool := !Text.beginsWith "--" name
  if text = "--" then .divider
  else if !Text.beginsWith "-" text || text = "-" then .value text
  else
    match Flag.names.lookup text with
    | some flag => .option flag (isShort text) none
    | none =>
      let (name, attached) := splitValue text
      match attached.bind fun _ => Flag.names.lookup name with
      | some flag => .option flag (isShort name) attached
      | none =>
        match candidates text with
        | [word] => word
        | _ :: _ :: _ => .ambiguous
        | [] =>
          if isNegativeNumber text || text.toList.contains ' ' then .value text else .unknown

/-- The words of a command line. -/
def ofTexts : List String → List Word
  | [] => []
  | text :: rest =>
    match ofText text with
    | .divider => .divider :: rest.map .value
    | word => word :: ofTexts rest

end Word

/-- What to do with a command line. -/
inductive Request where
  | run (options : Options)
  | help
  | refused
deriving DecidableEq, Repr, Inhabited

/-- The short options that are joined behind a short option without value; `none` if one of them is
none. The last one can have a value, or wants one. -/
def joined : List Char → Option (List Flag × Option (Flag × Option String))
  | [] => some ([], none)
  | c :: rest =>
    match Flag.names.lookup (String.ofList ['-', c]) with
    | none => none
    | some flag =>
      if flag.takesValue then
        some ([], some (flag, if rest.isEmpty then none else some (String.ofList rest)))
      else (joined rest).map fun (flags, last) => (flag :: flags, last)

/-- Take in the words of a command line; `strays` tells whether there was one that belongs to no
option. -/
def takeIn (strays : Bool) (o : Options) : List Word → Request
  | [] => if strays then .refused else .run o
  | .value _ :: rest | .divider :: rest | .unknown :: rest => takeIn true o rest
  | .ambiguous :: _ => .refused
  | .option flag isShort attached :: rest =>
    match flag.takesValue, attached with
    | true, some value => takeIn strays (o.setValue flag value) rest
    | true, none =>
      match rest with
      | .value value :: more => takeIn strays (o.setValue flag value) more
      | _ => .refused
    | false, none => if flag = .help then .help else takeIn strays (o.turnOn flag) rest
    | false, some text =>
      if !isShort || text = "" then .refused
      else
        match joined text.toList with
        | none => .refused
        | some (flags, last) =>
          let flags := flag :: flags
          let o := flags.foldl Options.turnOn o
          match last with
          | none => if flags.contains .help then .help else takeIn strays o rest
          | some (final, some value) =>
            if flags.contains .help then .help else takeIn strays (o.setValue final value) rest
          | some (final, none) =>
            match rest with
            | .value value :: more =>
              if flags.contains .help then .help else takeIn strays (o.setValue final value) more
            | _ => .refused

/-- What a command line asks for. -/
def request (arguments : List String) : Request :=
  let words := Word.ofTexts arguments
  if words.contains .ambiguous then .refused else takeIn false {} words

example : request ["-s", "a", "--out=b", "-wcx"] =
    .run { specs := some "a", output := some "b", watch := true, config := some "x" } := by
  decide +kernel

example : request ["-w=1"] = .refused ∧ request ["x"] = .refused ∧ request ["--"] = .refused ∧
    request ["-s"] = .refused := by
  decide +kernel

end ApiScaffold.Cli
