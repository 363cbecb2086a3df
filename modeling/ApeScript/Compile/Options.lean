import ApeScript.Bytes

/-!
# Compiler options

The dialect of a script and what the compiler makes of it. Legacy toggles select the grammar of
older scripts; the permissions accept what the plain grammar refuses.
-/

namespace ApeScript

structure Options where
  /-- The script's file name, which diagnostics show. -/
  file : Bytes := []
  /-- Text before the first directive is skipped. -/
  legacyTopLevel : Bool := false
  /-- A goto takes the rest of its line; comments are then blanked as well. -/
  legacyLabeledCommands : Bool := false
  /-- Comments are blanked before anything else, inside strings too. -/
  legacyComments : Bool := false
  /-- Macros are replaced in the text before it is read. -/
  legacyMacros : Bool := false
  /-- The name of a camera is any word. -/
  legacyCam : Bool := false
  /-- Every operator has a precedence of its own. -/
  legacyPrecedence : Bool := false
  /-- The destination of an assignment is any word up to the equals sign. -/
  legacySetNaming : Bool := false
  /-- A type mismatch in an expression is only a warning. -/
  allowMalformedExprs : Bool := false
  /-- Numbers may have an exponent. -/
  allowExpFloats : Bool := false
  /-- Escapes are decoded in the strings of expressions. -/
  allowExprEscapes : Bool := false
  /-- A condition may govern an empty block. -/
  allowEmptyBlocks : Bool := false
  /-- Constants are folded and constant conditions dropped. -/
  optimize : Bool := false
  /-- The inline switch hash, when it does not come from the file name. -/
  hash : Option UInt32 := none
  /-- A warning makes the compiler fail. -/
  warningsAsErrors : Bool := false
  deriving DecidableEq, Repr

namespace Options

def defaults : Options :=
  { allowExpFloats := true, allowExprEscapes := true, allowEmptyBlocks := true }

/-- Every legacy toggle on, and the permissions older scripts lack off. -/
def withLegacy (o : Options) : Options :=
  { o with
    legacyTopLevel := true, legacyLabeledCommands := true, legacyComments := true,
    legacyMacros := true, legacyCam := true, legacyPrecedence := true, legacySetNaming := true,
    allowMalformedExprs := true, allowExprEscapes := false, allowEmptyBlocks := false,
    optimize := false }

def legacy : Options := defaults.withLegacy

def maxHash : Nat := 99999

/-- The options with what they imply: legacy gotos need legacy comments. -/
def effective (o : Options) : Options :=
  { o with legacyComments := o.legacyComments || o.legacyLabeledCommands }

end Options

end ApeScript
