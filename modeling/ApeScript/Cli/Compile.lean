import ApeScript.Cli.Job

/-!
# Compiling files

`compileFile` compiles one script, and `batch` every script below a directory, each as it would be
compiled alone.
-/

namespace ApeScript.Cli

def encodeFor (path : Bytes) (f : File) : Job Bytes :=
  match f.encode with
  | .bytes data => pure data
  | .refused e => throw (.encode path e)
  | .halted => throw .halted

def compileFile (options : Options) (source target : Bytes) : Job Unit := do
  let src ← Job.readFile source
  let outcome := compile src { options with file := source }
  outcome.diagnostics.forM fun d => Job.note (.diagnostic d)
  let file ← Job.ofExcept .compile outcome.result
  Job.writeFile target (← encodeFor target file)

def runCompile (a : Arguments) (source target : Bytes) : Job Unit := do
  compileFile (← Job.ofExcept .options (optionsOf a)) source target

/-- Compiles every script below a directory into the same place below another. -/
def batch (options : Options) (source target : Bytes) : Job Unit := do
  let entries ← Job.walk .walkInput [scriptExtension] source
  let results ← Job.pool (fun entry =>
    compileFile options entry.path
      (FileTree.outputPath target entry.relative compiledExtension)) entries
  let failed := Work.failed results
  if 0 < failed then throw (.scriptsFailed failed entries.length)

def runBatch (a : Arguments) (source target : Bytes) : Job Unit := do
  let options ← Job.ofExcept .options (optionsOf a)
  let _ ← Job.settings
  batch options source target

end ApeScript.Cli
