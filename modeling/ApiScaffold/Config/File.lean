import ApiScaffold.Config.Basic
import ApiScaffold.Files.Tree
import ApiScaffold.Json.Reader
import ApiScaffold.Toml.Reader
import ApiScaffold.Toml.Writer

set_option autoImplicit false

/-! # Configuration files

A configuration is kept in a file of JSON or TOML; the name of the file tells which. -/

namespace ApiScaffold.Config

open Files (Tree)

/-- The configuration file in TOML. -/
def tomlFile : String := "openapi-gen.toml"

/-- The configuration file in JSON. -/
def jsonFile : String := ".openapi-gen.json"

/-- The configuration file to read: one in the directory to search, else the one given; when that is
the usual one and not there, the one in JSON. -/
def pathIn (t : Tree) (path searchDir : String) : String :=
  let candidates :=
    if searchDir != "" && t.isDirectory searchDir then
      [tomlFile, jsonFile].map (Files.join searchDir)
    else []
  let path := (candidates.find? t.has).getD path
  if !t.has path && path = tomlFile && t.has jsonFile then jsonFile else path

/-- The value that the text of a configuration file writes. -/
def parse (path text : String) : Except Toml.Flaw Json :=
  if Text.finishesWith ".json" path then Toml.require (Json.read? text)
  else (Toml.read text).map .obj

/-- The configuration of the file that is found by a path and a directory to search, if there is
one. -/
def load (t : Tree) (path searchDir : String) : Except Fault (Option Config) := do
  let path := pathIn t path searchDir
  if !t.has path then return none
  let unreadable (detail : String) : Fault := .complaint (.unreadableConfig detail) (some path)
  match t.read path with
  | .error cause => throw (unreadable (Fault.file cause).text)
  | .ok text =>
    match parse path text with
    | .error flaw => throw (flaw.fault?.getD (unreadable "not well formed"))
    | .ok (.obj fields) => return some (ofFields fields)
    | .ok _ => throw (.complaint .configNotAnObject (some path))

/-- The text of a configuration file in TOML. Settings without a value are left out. -/
def text (c : Config) : Except Fault String :=
  Toml.write (c.toFields.filter (·.2 != .null))

end ApiScaffold.Config
