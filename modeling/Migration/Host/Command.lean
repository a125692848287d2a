import Migration.Grammar.Declarations
import Migration.Host.Response
import Migration.Recipe.Manifest
import Migration.Tree.Printer

/-!
# Commands

Applying a manifest to files, and listing what is in one. Files are read through a function from
paths to texts, and what is to be written is part of the result, so a command is a function like any
other.

All files are parsed before any of them is changed, because the types that they declare count as
known for each of them. Otherwise what becomes of a file depends on that file alone.
-/

namespace Migration

/-- How files are read. -/
abbrev FileReader := String → Except FileError String

/-- What to apply to which files. -/
structure ApplyOptions where
  /-- The path of the manifest. -/
  config : String
  /-- The path of a list of known types. -/
  types : Option String
  /-- Changed files are written back. -/
  write : Bool
  files : List String

/-- The text of a file. -/
def readText (read : FileReader) (path : String) : Except CommandError String :=
  (read path).mapError (.file path)

/-- The recipes of a manifest. -/
def loadPipeline (read : FileReader) (path : String) : Except CommandError Recipe := do
  let text ← readText read path
  (Manifest.parse text >>= Manifest.build).mapError .configuration

/-- The known types of a list; none when there is no list. -/
def loadTypes (read : FileReader) : Option String → Except CommandError TypeIndex
  | none => .ok TypeIndex.empty
  | some path => do
    let text ← readText read path
    match (Json.parse text).bind TypeIndex.ofJson? with
    | some index => return index
    | none => throw (.notATypeList path)

/-- The module of a file. -/
def loadModule (read : FileReader) (path : String) : Except CommandError Module := do
  let text ← readText read path
  (Module.parse text).mapError (.parse path)

/-- The types known for all files: the given ones and those that the files declare. -/
def declareAll (index : TypeIndex) (parsed : List (String × Except CommandError Module)) :
    TypeIndex :=
  parsed.foldl (fun index p =>
    match p.2 with
    | .ok m => index.declare m.declaredTypes
    | .error _ => index) index

/-- What becomes of a file, with the text to write back if there is one; nothing when the change has
no end. -/
def applyToFile (pipeline : Recipe) (index : TypeIndex) (write : Bool) (path : String)
    (parsed : Except CommandError Module) : Option (FileResult × Option String) :=
  match parsed with
  | .error e => some (⟨path, .error e⟩, none)
  | .ok m =>
    (pipeline.apply index m).map fun outcome =>
      match outcome with
      | .error e => (⟨path, .error (.resolution path e.recipe e.cause)⟩, none)
      | .ok a =>
        let written := write && a.report.changed
        (⟨path, .ok (a.report, written)⟩, if written then some a.module.print else none)

/-- The files to write back, by path. -/
def writesOf (results : List (FileResult × Option String)) : List (String × String) :=
  results.filterMap fun (r, text) => text.map fun text => (r.path, text)

/-- Apply a manifest to files: the response, and the texts to write back. -/
def runApply (read : FileReader) (o : ApplyOptions) :
    Option (Except CommandError (ApplyResponse × List (String × String))) :=
  if o.files.isEmpty then some (.error .noInputFiles)
  else
    match loadPipeline read o.config with
    | .error e => some (.error e)
    | .ok pipeline =>
      match loadTypes read o.types with
      | .error e => some (.error e)
      | .ok index =>
        let parsed := o.files.map fun path => (path, loadModule read path)
        let index := declareAll index parsed
        (parsed.mapM fun p => applyToFile pipeline index o.write p.1 p.2).map fun results =>
          .ok (⟨pipeline.name, results.map (·.1)⟩, writesOf results)

/-- List the recipes of a manifest. -/
def runList (read : FileReader) (config : String) : Except CommandError Json := do
  return Json.ofListing (← loadPipeline read config)

end Migration
