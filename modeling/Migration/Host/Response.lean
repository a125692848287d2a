import Migration.Host.CommandError
import Migration.Json.Printer
import Migration.Recipe.Basic

/-!
# Responses

What a command answers, as JSON spread over lines. Every response starts with a status and the
version of its shape; files are reported in the order in which they were given.
-/

namespace Migration

/-- The version of the shape of all responses. -/
def schemaVersion : String := "1"

/-- What became of one file: its report and whether it was written back, or why it failed. -/
structure FileResult where
  path : String
  outcome : Except CommandError (Report × Bool)

namespace FileResult

/-- The cause for which the file failed. -/
def error? (r : FileResult) : Option CommandError :=
  match r.outcome with
  | .error e => some e
  | .ok _ => none

/-- The report on a file that did not fail. -/
def report? (r : FileResult) : Option Report :=
  match r.outcome with
  | .error _ => none
  | .ok (report, _) => some report

def toJson (r : FileResult) : Json :=
  match r.outcome with
  | .ok (report, written) =>
    let status := if report.changed then "changed" else "unchanged"
    .obj [("path", .str r.path), ("status", .str status), ("written", .bool written),
      ("report", report.toJson)]
  | .error e =>
    .obj [("path", .str r.path), ("status", .str "error"), ("written", .bool false),
      ("error", e.toJson)]

end FileResult

/-- The response to applying a manifest to files. -/
structure ApplyResponse where
  pipeline : String
  files : List FileResult

namespace ApplyResponse

/-- The greatest code of a file that failed. -/
def errorCode? (r : ApplyResponse) : Option Nat :=
  (r.files.filterMap fun f => f.error?.map CommandError.code).max?

/-- Totals over all files. -/
def summary (r : ApplyResponse) : Json :=
  let reports := r.files.filterMap FileResult.report?
  .obj [("files", .nat r.files.length), ("changed", .nat (reports.filter (·.changed)).length),
    ("failed", .nat (r.files.filterMap FileResult.error?).length),
    ("rewrites", .nat (reports.foldr (·.edits + ·) 0))]

def toJson (r : ApplyResponse) : Json :=
  .obj [("status", .str (if r.errorCode?.isNone then "ok" else "error")),
    ("schema_version", .str schemaVersion), ("pipeline", .str r.pipeline),
    ("files", .arr (r.files.map FileResult.toJson)), ("summary", r.summary)]

end ApplyResponse

/-- The response to listing a manifest. -/
def Json.ofListing (pipeline : Recipe) : Json :=
  .obj [("status", .str "ok"), ("schema_version", .str schemaVersion),
    ("pipeline", pipeline.toInfo)]

/-- The response of a command that failed as a whole. -/
def Json.ofCommandError (e : CommandError) : Json :=
  .obj [("status", .str "error"), ("schema_version", .str schemaVersion), ("error", e.toJson)]

/-- A response as it is printed. -/
def Json.response (j : Json) : String := j.pretty ++ "\n"

end Migration
