/-!
# Options

Switches for emitting bodies, defining classes and running code, with their defaults.
-/

namespace StackCode

structure EmitOptions where
  /-- Record the tables of variables and lines. -/
  debugInfo : Bool := true
  /-- Verify a body when its method is finished. -/
  verify : Bool := true

structure LoaderOptions where
  /-- Verify every body when its class is defined. -/
  verify : Bool := true

structure ExecutionOptions where
  /-- The greatest number of calls active at once. -/
  maxDepth : Nat := 1000

end StackCode
