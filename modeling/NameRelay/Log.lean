-- SUMMARY: Records of what a relay did, with how much they matter.

/-!
# Log records

A record has a level and a text. Records are values like any other result; whoever runs the relay
decides which of them to show.
-/

namespace NameRelay

/-- How much a record matters, the most severe first. -/
inductive LogLevel where
  | error
  | warn
  | info
  | debug
  | trace
  deriving DecidableEq, Repr

namespace LogLevel

/-- How far the level is from the most severe one, which is 1. -/
def verbosity : LogLevel → Nat
  | error => 1
  | warn => 2
  | info => 3
  | debug => 4
  | trace => 5

/-- The verbosity of a setting: records up to it are shown. Any other word shows none. -/
def verbosityOf : String → Nat
  | "warn" => warn.verbosity
  | "info" => info.verbosity
  | "debug" => debug.verbosity
  | "trace" => trace.verbosity
  | _ => 0

def name : LogLevel → String
  | error => "ERROR"
  | warn => "WARN"
  | info => "INFO"
  | debug => "DEBUG"
  | trace => "TRACE"

end LogLevel

/-- One record. -/
structure LogRecord where
  level : LogLevel
  text : String
  deriving DecidableEq, Repr

end NameRelay
