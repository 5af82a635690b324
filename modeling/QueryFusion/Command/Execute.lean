import QueryFusion.Command.Arguments
import QueryFusion.Document.Decode
import QueryFusion.Document.Records
import QueryFusion.Engine.Run
import QueryFusion.Fusion.Compile
import QueryFusion.Plan.Describe
import QueryFusion.Value.Text

/-!
# Commands

Showing or running the scan functions of a plan. A command reads its files one after the other as it
needs them; how a file is read is left to the caller.
-/

namespace QueryFusion.Command

/-- Why a file cannot be read. -/
structure FileError where
  message : String
deriving DecidableEq, Repr

def FileError.missing (name : String) : FileError := ⟨s!"open {name}: no such file or directory"⟩

/-- Why a command failed. -/
inductive CommandError where
  | usage (cause : UsageError)
  | file (cause : FileError)
  | decode (name : String) (cause : Document.DecodeError)
  | config (name : String) (cause : Document.ConfigFailure)
  | fuse (name : String) (cause : Fusion.FuseError)
  /-- The live variables of the plan in a file cannot be computed. -/
  | plan (name : String) (cause : Plan.PlanError)
  | records (name : String) (cause : Document.RecordsError)
  | run (cause : Engine.Failure)

def CommandError.message : CommandError → String
  | usage cause => cause.message
  | file cause => cause.message
  | decode name cause => s!"{name}: {cause.message}"
  | config name cause => s!"{name}: {cause.message}"
  | fuse name cause => s!"{name}: {cause.message}"
  | plan name cause => s!"{name}: {cause.message}"
  | records name .document => s!"{name}: yaml: malformed document"
  | records name (.notStruct i) => s!"{name}: record {i} is not a structure"
  | run cause => cause.message

/-- Why a command ended early. -/
inductive Stop where
  | error (cause : CommandError)
  | fault (fault : Fault)

/-- What a command has printed. -/
structure Printed where
  out : String := ""
  err : String := ""

/-- A step of a command: what is printed before a failure stays. -/
abbrev Step := EStateM Stop Printed

def print (s : String) : Step Unit := modify fun p => { p with out := p.out ++ s }

def printErr (s : String) : Step Unit := modify fun p => { p with err := p.err ++ s }

def failBy {α : Type} (cause : CommandError) : Step α := throw (.error cause)

def orStop {α : Type} (step : Except Fault α) : Step α :=
  match step with
  | .ok a => pure a
  | .error fault => throw (.fault fault)

def decodePlan (name text : String) : Step Document.Document :=
  match Document.decode text with
  | .ok d => pure d
  | .error (.error cause) => failBy (.decode name cause)
  | .error (.fault fault) => throw (.fault fault)

def readConfig (name text : String) : Step Plan.Config :=
  match Document.loadConfig text with
  | .ok c => pure c
  | .error cause => failBy (.config name cause)

def readRecords (name text : String) : Step (List Value) :=
  match Document.loadRecords text with
  | .ok records => pure records
  | .error cause => failBy (.records name cause)

/-- Compiles a plan. The answer has the plan afterwards. -/
def compilePlan (verbose : Bool) (name : String) (d : Document.Document) :
    Step (List Fusion.ScanFunction × Plan) := do
  let outcome := Fusion.compile d.plan d.root d.config d.catalog none Fusion.defaultStem
  if verbose then
    outcome.notes.forM fun n => printErr s!"fuse: {n.text}\n"
  match outcome.result with
  | .ok functions => pure (functions, outcome.plan)
  | .error (.error cause) =>
    printErr (← orStop cause.report)
    failBy (.fuse name cause)
  | .error (.plan cause) => failBy (.plan name cause)
  | .error (.fault fault) => throw (.fault fault)

def showFunction (f : Fusion.ScanFunction) : Step Unit := do
  print (← orStop f.fn.text)
  (f.fn.readers.zip f.fn.schemas).forM fun (reader, path) =>
    let asked := ((f.callSites.lookup path.text).map Plan.CallSite.fn).getD ""
    print s!"{reader}: {path.text} ({asked})\n"

def showPlan (functions : List Fusion.ScanFunction) (plan : Plan) (root : Plan.OpId) :
    Step Unit := do
  functions.forM fun f => do
    showFunction f
    print "\n"
  print "plan:\n"
  print (← orStop (plan.describe root))

def runFunctions (verbose : Bool) (functions : List Fusion.ScanFunction) (records : List Value) :
    Step Unit :=
  functions.forM fun f => do
    let report := Engine.run f.fn records
    if verbose then report.log.forM fun line => printErr (line ++ "\n")
    match report.result with
    | .ok output =>
      print s!"{f.fn.name}: {output.rows.length} rows\n"
      output.rows.forM fun row => print ("\t" ++ Value.rowText row ++ "\n")
    | .error (.fault fault) => throw (.fault fault)
    | .error cause => failBy (.run cause)

/-- What a command leaves behind. -/
structure Report where
  printed : Printed
  stop : Option Stop

def Report.of : EStateM.Result Stop Printed Unit → Report
  | .ok _ printed => ⟨printed, none⟩
  | .error stop printed => ⟨printed, some stop⟩

def usage : String :=
  "Usage:\n  dump [command]\n\nAvailable Commands:\n" ++
  "  ir          Print the scan functions of a plan\n" ++
  "  run         Run the scan functions of a plan over records\n"

section

variable {m : Type → Type} [Monad m]

/-- Reads a file and goes on with its text. -/
def withFile (readFile : String → m (Except FileError String)) (name : String) (printed : Printed)
    (next : String → m Report) : m Report := do
  match ← readFile name with
  | .ok text => next text
  | .error cause => pure ⟨printed, some (.error (.file cause))⟩

/-- Runs a step and goes on with its answer. -/
def andThen {α : Type} (step : Step α) (printed : Printed) (next : α → Printed → m Report) :
    m Report :=
  match step printed with
  | .ok a printed => next a printed
  | .error stop printed => pure ⟨printed, some stop⟩

/-- Decodes and compiles the plan in a file, under another configuration if one is given, and goes
on with the functions and the plan. -/
def withPlan (readFile : String → m (Except FileError String)) (o : Options) (name : String)
    (next : List Fusion.ScanFunction × Plan → Plan.OpId → Printed → m Report) : m Report :=
  withFile readFile name {} fun text =>
    andThen (decodePlan name text) {} fun d printed =>
      let compiled (d : Document.Document) (printed : Printed) : m Report :=
        andThen (compilePlan o.verbose name d) printed fun result printed =>
          next result d.root printed
      if o.config.isEmpty then compiled d printed
      else
        withFile readFile o.config printed fun text =>
          andThen (readConfig o.config text) printed fun config printed =>
            compiled { d with config } printed

def execute (readFile : String → m (Except FileError String)) (args : List String) : m Report :=
  match Request.read args with
  | .error cause => pure ⟨{}, some (.error (.usage cause))⟩
  | .ok .help => pure ⟨{ out := usage }, none⟩
  | .ok (.act .inspect o) =>
    withPlan readFile o (o.files.headD "") fun (functions, plan) root printed =>
      pure (Report.of (showPlan functions plan root printed))
  | .ok (.act .run o) =>
    let recordsFile := (o.files.drop 1).headD ""
    withPlan readFile o (o.files.headD "") fun (functions, _) _ printed =>
      withFile readFile recordsFile printed fun text =>
        andThen (readRecords recordsFile text) printed fun records printed =>
          pure (Report.of (runFunctions o.verbose functions records printed))

end

end QueryFusion.Command
