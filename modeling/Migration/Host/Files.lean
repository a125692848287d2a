import Migration.Host.Command

/-!
# A directory in memory

Files and directories below one directory, for running commands without touching a disk. A path is
followed segment by segment: every segment but the last must lead to a directory, `.` stays, and
`..` goes back. Above the top there are only directories, in which no name is known; an absolute
path starts there.
-/

namespace Migration

/-- What is found at a path. -/
inductive Entry where
  | file (bytes : ByteArray)
  | directory

/-- Where a path leads. -/
inductive Place where
  /-- The segments that lead down from the top. -/
  | below (path : List String)
  /-- Some directory above the top. -/
  | above
deriving DecidableEq, Repr

namespace Place

/-- How many bytes a segment may have. -/
def maxSegmentBytes : Nat := 255

/-- The directory that holds a place. -/
def parent : Place → Place
  | .below [] => .above
  | .below path => .below path.dropLast
  | .above => .above

/-- The place that a segment leads to from a directory. -/
def enter (here : Place) (segment : String) : Except FileError Place :=
  if segment == "" || segment == "." then .ok here
  else if segment == ".." then .ok here.parent
  else if maxSegmentBytes < segment.utf8ByteSize then .error .nameTooLong
  else match here with
    | .below path => .ok (.below (path ++ [segment]))
    | .above => .error .notFound

end Place

/-- Entries by the segments of their paths. The directories above an entry exist with it. -/
structure Files where
  entries : List (List String × Entry)

namespace Files

/-- How many bytes a path may have. -/
def maxPathBytes : Nat := 4095

/-- The segments of a path. -/
def segments (path : String) : List String := (Name.splitAt '/' path.toList).map String.ofList

/-- The entries with the given names, each a path without `..` that starts at the top. -/
def ofList (named : List (String × Entry)) : Files :=
  ⟨named.map fun (name, entry) =>
    ((segments name).filter fun segment => segment != "" && segment != ".", entry)⟩

/-- The entry at a place. -/
def entry? (fs : Files) : Place → Option Entry
  | .below path => (fs.entries.find? (·.1 == path)).map (·.2)
  | .above => none

/-- There is a directory at a place. -/
def isDirectory (fs : Files) : Place → Bool
  | .below path => path.isEmpty || fs.entries.any fun (longer, entry) =>
    match entry with
    | .directory => path.isPrefixOf longer
    | .file _ => path.isPrefixOf longer && path != longer
  | .above => true

/-- Follow the segments of a path from a place on. -/
def follow (fs : Files) : Place → List String → Except FileError Place
  | here, [] => .ok here
  | here, segment :: rest =>
    if fs.isDirectory here then
      match here.enter segment with
      | .ok next => follow fs next rest
      | .error cause => .error cause
    else if (fs.entry? here).isSome then .error .notADirectory
    else .error .notFound

/-- Where a path leads. The empty path leads nowhere. -/
def resolve (fs : Files) (path : String) : Except FileError Place :=
  if path.toList.contains '\x00' then .error .nulInPath
  else if path == "" then .error .notFound
  else if maxPathBytes < path.utf8ByteSize then .error .nameTooLong
  else
    let start : Place := if path.toList.head? == some '/' then .above else .below []
    follow fs start (segments path)

/-- The text of the file at a path. -/
def read (fs : Files) : FileReader := fun path => do
  let here ← fs.resolve path
  match fs.entry? here with
  | some (.file bytes) =>
    match String.fromUTF8? bytes with
    | some text => return text
    | none => throw .notText
  | _ => if fs.isDirectory here then throw .isADirectory else throw .notFound

/-- Replace the text of the file at a path. -/
def write (fs : Files) (path text : String) : Files :=
  match fs.resolve path with
  | .ok (.below here) =>
    ⟨fs.entries.map fun (place, entry) =>
      (place, if place == here then .file text.toUTF8 else entry)⟩
  | _ => fs

/-- Replace the texts of several files, one after the other. -/
def writeAll (fs : Files) (writes : List (String × String)) : Files :=
  writes.foldl (fun fs (path, text) => fs.write path text) fs

end Files

end Migration
