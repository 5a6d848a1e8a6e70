/-
The settings of a compiler.
-/
namespace QueryCompiler

/-- What can be switched on and off. -/
inductive Flag where
  /-- Keep the source line of every instruction. -/
  | lineInfo
  /-- Check the balance of every node once it has been lowered. -/
  | verifyStack
deriving DecidableEq

/-- The settings of a compiler. -/
structure Settings where
  /-- The deepest nesting of a tree that is accepted. -/
  maxDepth : Nat := 256
  lineInfo : Bool := true
  verifyStack : Bool := true
deriving DecidableEq

namespace Settings

/-- Switch on exactly the given flags. -/
def onlyFlags (settings : Settings) (flags : List Flag) : Settings :=
  { settings with lineInfo := flags.contains .lineInfo, verifyStack := flags.contains .verifyStack }

/-- Switch off the given flags and leave the others as they are. -/
def dropFlags (settings : Settings) (flags : List Flag) : Settings :=
  { settings with
    lineInfo := settings.lineInfo && !flags.contains .lineInfo
    verifyStack := settings.verifyStack && !flags.contains .verifyStack }

/-- The flags as the bits of a number. -/
def flagBits (settings : Settings) : Nat :=
  (if settings.lineInfo then 1 else 0) + (if settings.verifyStack then 2 else 0)

end Settings

end QueryCompiler
