import ApeScript.Cli.Job
import ApeScript.File.References
import ApeScript.Listing
import ApeScript.Yaml.Outline

/-!
# Showing compiled files

A compiled file is shown as a listing, as YAML or as a script that compiles to it; `checkFile`
reports the references in it that lead nowhere.
-/

namespace ApeScript.Cli

inductive OutputFormat where
  | listing | script | yaml
  deriving DecidableEq, Repr

def OutputFormat.extension : OutputFormat → Bytes
  | listing => utf8 ".dis"
  | script => scriptExtension
  | yaml => utf8 ".yaml"

/-- How to show a file; with `validate` it must be its own encoding. -/
structure Rendering where
  format : OutputFormat
  validate : Bool
  charset : Charset
  deriving DecidableEq, Repr

namespace Rendering

def render (r : Rendering) (data : Bytes) : Except RenderError Bytes := do
  let (file, layout) ← (File.decodeWithLayout data).mapError .decode
  if r.validate then (file.validate data).mapError .invalid
  match r.format with
  | .script => (Script.writeFile file).mapError .unwritable
  | .yaml => return Yaml.ofFile r.charset file (some layout)
  | .listing => return Listing.render r.charset file (some layout)

def renderFile (r : Rendering) (source target : Bytes) : Job Unit := do
  let data ← Job.readFile source
  Job.writeFile target (← Job.ofExcept (.render source) (r.render data))

/-- Shows every compiled file below a directory in the same place below another. -/
def renderDirectory (r : Rendering) (source target : Bytes) : Job Unit := do
  let entries ← Job.walk .walkInput [compiledExtension] source
  let results ← Job.pool (fun entry =>
    r.renderFile entry.path
      (FileTree.outputPath target entry.relative r.format.extension)) entries
  let failed := Work.failed results
  if 0 < failed then throw (.filesFailed failed entries.length)

end Rendering

def formatOf (a : Arguments) : Except CommandError OutputFormat :=
  match a.truth "src", a.truth "yaml" with
  | true, true => .error .twoFormats
  | true, false => .ok .script
  | false, true => .ok .yaml
  | false, false => .ok .listing

def runDisasm (a : Arguments) (source target : Bytes) : Job Unit := do
  let charset ← Job.charset a (← Job.settings)
  let format ← Job.ofExcept id (formatOf a)
  let rendering : Rendering := ⟨format, a.truth "validate", charset⟩
  if a.truth "dir" then rendering.renderDirectory source target
  else rendering.renderFile source target

def runDecompile (a : Arguments) (source target : Bytes) : Job Unit :=
  (⟨.script, a.truth "validate", .raw⟩ : Rendering).renderFile source target

/-- Prints what stands out among the references of a file, and fails if something is wrong. -/
def checkFile (path : Bytes) : Job Unit := do
  let file ← Job.ofExcept (.decode path) (File.decode (← Job.readFile path))
  let report := file.checkReferences
  Job.print report.text
  if 0 < report.problems then throw (.references path report.problems)

end ApeScript.Cli
