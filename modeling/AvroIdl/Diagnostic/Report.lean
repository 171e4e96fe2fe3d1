import AvroIdl.Diagnostic

/-!
# Reporting computations

A computation that may warn, and that stops at its first error. The warnings given before an error
are kept.
-/
namespace AvroIdl

abbrev Report := ExceptT Diagnostic (StateM (List Diagnostic))

namespace Report

def warn (d : Diagnostic) : Report Unit := modify fun warnings => warnings ++ [d]

def fail {α : Type} (d : Diagnostic) : Report α := throw d

/-- A computation that does not warn. -/
def ofExcept {α : Type} : Except Diagnostic α → Report α
  | .ok a => pure a
  | .error d => throw d

end Report

end AvroIdl
