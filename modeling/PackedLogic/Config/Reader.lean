import PackedLogic.Config.Basic
import PackedLogic.Json.Record
set_option autoImplicit false

/-!
# Reading a configuration

A configuration is written as a record with the fields `general` and `driver`, themselves records
with one field each.  Whatever is missing keeps its default.
-/

namespace PackedLogic

namespace Config

open Json

/-- The switch that reports steps. -/
def traceStepsReader : Reader Config :=
  scalarReader fun
    | .bool b => some fun config => { config with traceSteps := b }
    | _ => none

/-- The number of steps that settling takes. -/
def settleStepsReader : Reader Config :=
  scalarReader fun
    | .natural n => some fun config => { config with settleSteps := n }
    | _ => none

/-- The fields of a configuration. -/
def fields : Fields Config :=
  [("general", record [("trace_steps", traceStepsReader)]),
    ("driver", record [("settle_steps", settleStepsReader)])]

/-- Reads a configuration, which must be all of the text. -/
def read (text : String) : Except TextFault Config := do
  let (config, rest) ← record fields {} text.toList
  if (next? rest.1).isNone then return config else throw .malformed

/-- Reads a configuration, or says that it cannot be read. -/
def parse? (text : String) : Except Fault Config := (read text).mapError .config

end Config

end PackedLogic
