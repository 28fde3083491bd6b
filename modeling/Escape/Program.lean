import Escape.Func

/-!
# Programs

A program is a table of interned types and a table of functions.
-/

namespace Escape

/-- Interned types and functions. -/
structure Program where
  types : TypeTable := {}
  funcs : Array Func := #[]
deriving DecidableEq, Inhabited

namespace Program

/-- The function that `f` names, if it is declared. -/
def func? (p : Program) (f : FuncId) : Option Func := p.funcs[f.index]?

/-- The first function of the given name. -/
def find? (p : Program) (name : String) : Option FuncId :=
  (p.funcs.findIdx? (·.name = name)).map FuncId.mk

/-- Adds a function with an empty entry block. -/
def declare (p : Program) (name : String) (params : List Param) (returnTy : Option TypeId) :
    Program × FuncId :=
  ({ p with funcs := p.funcs.push (.declare name params returnTy) }, ⟨p.funcs.size⟩)

/-- Replaces a function. -/
def setFunc (p : Program) (f : FuncId) (fn : Func) : Program :=
  { p with funcs := p.funcs.setIfInBounds f.index fn }

end Program

end Escape
