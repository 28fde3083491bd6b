/-!
# Identifiers

Functions, values, instructions, blocks and types of a program, and the nodes of a connection
graph, are named by their position in the table that holds them. Each kind of name is a type of its
own, so that a value is never mistaken for a node. The printed forms are `@f0`, `%0`, `#0`, `bb0`,
`$T0` and `n0`.
-/

namespace Escape

/-- A function of a program. -/
structure FuncId where
  index : Nat
deriving DecidableEq, Inhabited

/-- A value, unique within one function. -/
structure ValueId where
  index : Nat
deriving DecidableEq, Inhabited

/-- An instruction, unique within one function. -/
structure InstId where
  index : Nat
deriving DecidableEq, Inhabited

/-- A basic block, unique within one function. -/
structure BlockId where
  index : Nat
deriving DecidableEq, Inhabited

/-- An interned type. -/
structure TypeId where
  index : Nat
deriving DecidableEq, Inhabited

/-- A node of a connection graph. -/
structure NodeId where
  index : Nat
deriving DecidableEq, Inhabited

instance : ToString FuncId := ⟨fun f => "@f" ++ toString f.index⟩
instance : ToString ValueId := ⟨fun v => "%" ++ toString v.index⟩
instance : ToString InstId := ⟨fun i => "#" ++ toString i.index⟩
instance : ToString BlockId := ⟨fun b => "bb" ++ toString b.index⟩
instance : ToString TypeId := ⟨fun t => "$T" ++ toString t.index⟩
instance : ToString NodeId := ⟨fun n => "n" ++ toString n.index⟩

end Escape
