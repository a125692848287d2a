import Migration.Host.Command

/-!
# The command line

Two commands, `apply` and `list`, with their options. The arguments are read from left to right, and
the first one that asks for help or the version, or that is not understood, decides. An option may
be given once, with its value behind it or after an equals sign; behind `--` everything is a file.
-/

namespace Migration

/-- What the arguments of the program can ask for. -/
inductive Command where
  | apply (options : ApplyOptions)
  | list (config : String)

/-- Why arguments name no command to run. -/
inductive Refusal where
  | version
  | help
  | usage
deriving DecidableEq, Repr

namespace CommandLine

/-- Which options are known: those in front of the command, or those of a command. -/
inductive Level where
  | top
  | apply
  | list
deriving DecidableEq, Repr

/-- The options read so far. -/
structure Options where
  config : Option String
  types : Option String
  write : Bool
  files : List String
  logLevel : Option String
  logFormat : Option String

/-- No options. -/
def Options.empty : Options := ⟨none, none, false, [], none, none⟩

/-- What an argument looks like. -/
inductive Shape where
  /-- `--` -/
  | escape
  /-- `--name` or `--name=value` -/
  | long (name : String) (value : Option String)
  /-- A dash and letters. -/
  | short (letters : List Char)
  | plain
deriving DecidableEq, Repr

/-- The shape of an argument. A single dash is plain. -/
def shape (arg : String) : Shape :=
  match arg.toList with
  | ['-', '-'] => .escape
  | '-' :: '-' :: rest =>
    let name := String.ofList (rest.takeWhile (· != '='))
    match rest.dropWhile (· != '=') with
    | [] => .long name none
    | _ :: value => .long name (some (String.ofList value))
  | '-' :: c :: rest => .short (c :: rest)
  | _ => .plain

/-- The option takes a value. -/
def takesValue (level : Level) (name : String) : Bool :=
  match name with
  | "log-level" | "log-format" => true
  | "config" => level != .top
  | "types" => level == .apply
  | _ => false

/-- An option is set that must not be set yet; its value must pass the test. -/
def setOnce (old : Option String) (value : String) (test : String → Bool) :
    Except Refusal (Option String) :=
  if old.isSome || !test value then .error .usage else .ok (some value)

/-- An option with a value. A path must not be empty. -/
def setOption (o : Options) (name value : String) : Except Refusal Options :=
  match name with
  | "log-level" => do
    let logLevel ← setOnce o.logLevel value ["trace", "debug", "info", "warn", "error"].contains
    return { o with logLevel }
  | "log-format" => do
    let logFormat ← setOnce o.logFormat value ["text", "json"].contains
    return { o with logFormat }
  | "config" => do
    let config ← setOnce o.config value (· != "")
    return { o with config }
  | "types" => do
    let types ← setOnce o.types value (· != "")
    return { o with types }
  | _ => .error .usage

/-- An option without a value. -/
def setFlag (level : Level) (o : Options) (name : String) : Except Refusal Options :=
  match level, name with
  | _, "help" => .error .help
  | .top, "version" => .error .version
  | .apply, "write" => if o.write then .error .usage else .ok { o with write := true }
  | _, _ => .error .usage

/-- Options given by a dash and letters, of which the first one decides. -/
def setLetters (level : Level) (letters : List Char) : Except Refusal Options :=
  match level, letters with
  | _, 'h' :: _ => .error .help
  | .top, 'V' :: _ => .error .version
  | _, _ => .error .usage

/-- One more file. -/
def addFile (level : Level) (o : Options) (path : String) : Except Refusal Options :=
  if level == .apply && path != "" then .ok { o with files := o.files ++ [path] }
  else .error .usage

/-- Read options. In front of the command the first plain argument ends them; it is given back with
those behind it. -/
def readOptions (level : Level) : Options → List String → Except Refusal (Options × List String)
  | o, [] => .ok (o, [])
  | o, arg :: rest =>
    match shape arg with
    | .escape =>
      if level == .top then .error .usage
      else (rest.foldlM (addFile level) o).map (·, [])
    | .plain =>
      if level == .top then .ok (o, arg :: rest)
      else do
        let o ← addFile level o arg
        readOptions level o rest
    | .short letters => do
      let o ← setLetters level letters
      readOptions level o rest
    | .long name (some value) =>
      if takesValue level name then do
        let o ← setOption o name value
        readOptions level o rest
      else .error .usage
    | .long name none =>
      if takesValue level name then
        match rest with
        | value :: rest =>
          if shape value == .plain then do
            let o ← setOption o name value
            readOptions level o rest
          else .error .usage
        | [] => .error .usage
      else do
        let o ← setFlag level o name
        readOptions level o rest

/-- Help on a command, which must be one. -/
def helpOn : List String → Refusal
  | [] => .help
  | [command] => if ["apply", "list", "help"].contains command then .help else .usage
  | _ => .usage

/-- The command that the arguments name. -/
def parse (args : List String) : Except Refusal Command := do
  let (_, rest) ← readOptions .top Options.empty args
  match rest with
  | "apply" :: rest =>
    let (o, _) ← readOptions .apply Options.empty rest
    match o.config, o.files with
    | some _, [] => throw .usage
    | some config, files => return .apply ⟨config, o.types, o.write, files⟩
    | none, _ => throw .usage
  | "list" :: rest =>
    let (o, _) ← readOptions .list Options.empty rest
    match o.config with
    | some config => return .list config
    | none => throw .usage
  | "help" :: rest => throw (helpOn rest)
  | _ => throw .usage

/-- The paths that a command reads. -/
def pathsOf : Command → List String
  | .apply o => o.config :: o.types.toList ++ o.files
  | .list config => [config]

/-- What the program does: its exit code, what it prints, and the files that it writes. -/
structure Result where
  exit : Nat
  stdout : String
  writes : List (String × String)

/-- What the program says about its version. -/
def versionText : String := "recast 0.1.0\n"

/-- What the program says about its use. -/
def helpText : String :=
  "Usage: recast [OPTIONS] <COMMAND>\n\nCommands:\n  apply  Run the manifest's units over source "
    ++ "files\n  list   Show the units a manifest builds\n"

/-- The result of a refusal. -/
def Result.ofRefusal : Refusal → Result
  | .version => ⟨0, versionText, []⟩
  | .help => ⟨0, helpText, []⟩
  | .usage => ⟨2, "", []⟩

/-- The result of a command that failed as a whole. -/
def Result.ofError (e : CommandError) : Result := ⟨e.code, (Json.ofCommandError e).response, []⟩

/-- Run a command; nothing when a change has no end. -/
def runCommand (read : FileReader) : Command → Option Result
  | .apply o =>
    (runApply read o).map fun outcome =>
      match outcome with
      | .error e => .ofError e
      | .ok (response, writes) => ⟨response.errorCode?.getD 0, response.toJson.response, writes⟩
  | .list config =>
    match runList read config with
    | .error e => some (.ofError e)
    | .ok j => some ⟨0, j.response, []⟩

/-- Run the program; nothing when a change has no end. -/
def run (read : FileReader) (args : List String) : Option Result :=
  match parse args with
  | .error refusal => some (.ofRefusal refusal)
  | .ok command => runCommand read command

end CommandLine

end Migration
