/-! What a compilation says: diagnostics about the program, in the order they were found, and trace
lines about its own work. -/
namespace Shading

inductive Severity where
  | fatal
  | internalError
  | error
  | warning
  | info
  | debug
  deriving DecidableEq, Repr

namespace Severity

def all : List Severity := [.fatal, .internalError, .error, .warning, .info, .debug]

def name : Severity → String
  | .fatal => "fatal"
  | .internalError => "internal error"
  | .error => "error"
  | .warning => "warning"
  | .info => "info"
  | .debug => "debug"

def ofName? (s : String) : Option Severity := all.find? fun v => v.name == s

def stopsWork : Severity → Bool
  | .fatal | .internalError => true
  | _ => false

def isError : Severity → Bool
  | .fatal | .internalError | .error => true
  | _ => false

end Severity

structure Diagnostic where
  severity : Severity
  /-- A file, or a bytecode module. -/
  source : String
  /-- A line of the file, or the position of an instruction. -/
  line : Nat
  message : String
  deriving DecidableEq, Repr

namespace Diagnostic

def error (source : String) (line : Nat) (message : String) : Diagnostic :=
  ⟨.error, source, line, message⟩

def warning (source : String) (line : Nat) (message : String) : Diagnostic :=
  ⟨.warning, source, line, message⟩

def text (d : Diagnostic) : String :=
  "[" ++ d.severity.name ++ "] " ++ d.source ++ "+" ++ toString d.line ++ ": " ++ d.message

end Diagnostic

abbrev Log := List Diagnostic

namespace Log

def hasErrors (log : Log) : Bool := log.any fun d => d.severity.isError

def firstError? (log : Log) : Option Diagnostic := log.find? fun d => d.severity.isError

def text (log : Log) : String := "\n".intercalate (log.map Diagnostic.text)

end Log

/-- How much detail a trace line gives. -/
inductive TraceLevel where
  | error
  | warn
  | info
  | debug
  | trace
  deriving DecidableEq, Repr

def TraceLevel.name : TraceLevel → String
  | .error => "ERROR"
  | .warn => "WARN"
  | .info => "INFO"
  | .debug => "DEBUG"
  | .trace => "TRACE"

def Severity.traceLevel : Severity → TraceLevel
  | .fatal | .internalError | .error => .error
  | .warning => .warn
  | .info => .info
  | .debug => .debug

structure TraceLine where
  level : TraceLevel
  message : String
  deriving DecidableEq, Repr

def TraceLine.text (l : TraceLine) : String := l.level.name ++ " " ++ l.message

def Diagnostic.traceLine (d : Diagnostic) : TraceLine := ⟨d.severity.traceLevel, d.text⟩

/-- All that was said so far. -/
structure Journal where
  log : Log := []
  trace : List TraceLine := []
  deriving Repr

abbrev Reporting (ε : Type) := ExceptT ε (StateM Journal)

namespace Reporting

variable {ε : Type}

def report (d : Diagnostic) : Reporting ε Unit := modify fun j => { j with log := j.log ++ [d] }

def reportAll (ds : Log) : Reporting ε Unit := modify fun j => { j with log := j.log ++ ds }

def note (level : TraceLevel) (message : String) : Reporting ε Unit :=
  modify fun j => { j with trace := j.trace ++ [⟨level, message⟩] }

def mapError {δ α : Type} (f : ε → δ) (work : Reporting ε α) : Reporting δ α :=
  ExceptT.mk (work.run.map (Except.mapError f))

end Reporting

/-- An error at a line of a file. -/
structure Located where
  file : String
  line : Nat
  message : String
  deriving DecidableEq, Repr

def Located.text (l : Located) : String :=
  "ERROR: " ++ l.file ++ ":" ++ toString l.line ++ ": " ++ l.message

/-- Why a source is not a program: a header is missing, or a line is wrong. -/
inductive FrontError where
  | headerNotFound (name asking : String) (line : Nat)
  | located (l : Located)
  deriving DecidableEq, Repr

namespace FrontError

def line : FrontError → Nat
  | .headerNotFound _ _ line => line
  | .located l => l.line

def message : FrontError → String
  | .headerNotFound name asking line =>
    "Include not found: '" ++ name ++ "' (included from " ++ asking ++ ":" ++ toString line ++ ")"
  | .located l => "Parse error: " ++ l.text

end FrontError

end Shading
