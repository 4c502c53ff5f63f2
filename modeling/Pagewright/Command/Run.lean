import Pagewright.Animation.Timeline
import Pagewright.Command.Arguments
import Pagewright.Command.Directory
import Pagewright.Document.Site
import Pagewright.Site.Project

/-!
Running command lines. A run reads documents, generates code and writes it, on whatever files it
is given access to: those of a machine, or a directory as data.
-/

namespace Pagewright

inductive Failure where
  | unreadable (path : String)
  | malformed (path : String)
  | invalidPage (path : String)
  | generation (fault : SiteError)
  | unwritable (path : String)
  | unwritableProject (folder : String)
deriving DecidableEq, Repr

def Failure.message : Failure → String
  | unreadable path => "read " ++ path
  | malformed path => "parse " ++ path
  | invalidPage path => "invalid page " ++ path
  | generation fault => fault.message
  | unwritable path => "write " ++ path
  | unwritableProject folder => "write project to " ++ folder

/-- Access to files. Writing needs the folder of the file; a run that needs new folders creates
them first. Both tell whether they succeeded. -/
structure FileAccess (m : Type → Type) where
  read : String → m (Option String)
  write : String → String → m Bool
  createAbove : String → m Bool

def FileAccess.ofDirectory : FileAccess (StateM Directory) where
  read path := do return (← get).read? path
  write path content := do
    match (← get).write? path content with
    | some d => do set d; return true
    | none => return false
  createAbove path := modifyGet fun d => let (d, done) := d.createAbove path; (done, d)

/-- What a run leaves besides files: the exit code, the output, and the complaint. -/
structure Outcome where
  code : Nat
  output : String
  complaint : String
deriving DecidableEq, Repr

/-- The source of a page on its own, once its animations are in order. -/
def Page.standalone (p : Page) (formatting : Formatting) (animations : List Animation)
    (backend : Backend) : Except SiteError String :=
  let ordered := (Timeline.ofAnimations animations).animations
  (p.source formatting ⟨ordered, backend, [], []⟩).mapError SiteError.format

namespace FileAccess

variable {m : Type → Type} [Monad m]

/-- Reads a document of some form from a file. -/
def load {α : Type} (files : FileAccess m) (decode : Decoder α) (path : String) :
    ExceptT Failure m α := do
  let some text ← files.read path | throw (.unreadable path)
  match decode.read? text with
  | some a => return a
  | none => throw (.malformed path)

/-- The path of a file in a folder. The path of the folder may end in a slash already. -/
def pathIn (folder path : String) : String :=
  if folder.toList.getLast? = some '/' then folder ++ path else folder ++ "/" ++ path

/-- Writes the files of a project into a folder, one after the other. -/
def writeProject (files : FileAccess m) (folder : String) :
    List SourceFile → ExceptT Failure m Unit
  | [] => return
  | file :: rest => do
    let path := pathIn folder file.path
    if !(← files.createAbove path) then throw (.unwritableProject folder)
    if !(← files.write path file.content) then throw (.unwritableProject folder)
    files.writeProject folder rest

def loadPage (files : FileAccess m) (path : String) : ExceptT Failure m Page := do
  let page ← files.load Decoder.page path
  match page.validate with
  | .ok () => return page
  | .error _ => throw (.invalidPage path)

def generate {α : Type} (result : Except SiteError α) : ExceptT Failure m α :=
  ExceptT.mk (pure (result.mapError Failure.generation))

def perform (files : FileAccess m) (formatting : Formatting) : Task → ExceptT Failure m String
  | .page path animations backend out => do
    let page ← files.loadPage path
    let animations ← match animations with
      | none => pure []
      | some path => files.load (Decoder.list Decoder.animation) path
    let source ← generate (page.standalone formatting animations backend)
    match out with
    | none => return source
    | some out => do
      if !(← files.write out source) then throw (.unwritable out)
      return ""
  | .animation path backend => do
    let animation ← files.load Decoder.animation path
    return animation.snippet backend ++ "\n"
  | .project path folder => do
    let site ← files.load Decoder.site path
    let project ← generate (site.project formatting)
    files.writeProject folder project
    return ""

end FileAccess

def programVersion : String := "sitegen 0.1.0"

def usageText : String :=
  "Usage: sitegen [--format-timeout-ms <MS>] <COMMAND>\n\n" ++
    "Commands:\n" ++
    "  page <PAGE> [--animations <FILE>] [--backend <NAME>] [--out <FILE>]\n" ++
    "  animation <ANIMATION> [--backend <NAME>]\n" ++
    "  project <SITE> --out <FOLDER>\n"

/-- What the program does when a command line asks for no run. -/
def Stop.outcome : Stop → Outcome
  | usage error => ⟨2, "", "error: " ++ error.message ++ "\n\n" ++ usageText⟩
  | help => ⟨0, usageText, ""⟩
  | version => ⟨0, programVersion ++ "\n", ""⟩

/-- Runs a command line on files. A run that fails has no output. -/
def runProgram {m : Type → Type} [Monad m] (files : FileAccess m) (environment : Environment)
    (arguments : List String) : m Outcome := do
  match Invocation.read environment arguments with
  | .error stop => return stop.outcome
  | .ok invocation =>
    let formatting : Formatting := ⟨tidyFormatter, invocation.limit⟩
    match ← (files.perform formatting invocation.task).run with
    | .ok output => return ⟨0, output, ""⟩
    | .error failure => return ⟨1, "", "Error: " ++ failure.message ++ "\n"⟩

end Pagewright
