import Escape.Data.Operation
import Escape.Program

/-!
# Programs as data

Types, functions and whole programs, written with all their tables. Cached pointer kinds are written
as well and taken as they are read.
-/

namespace Escape

/-! ## Types -/

/-- The name of a pointer kind. -/
def PointerKind.name : PointerKind → String
  | noPointer => "NoPointer"
  | referenceOnly => "ReferenceOnly"
  | anyPointer => "AnyPointer"

instance : ToData PointerKind := ⟨fun k => .text k.name⟩

instance : OfData PointerKind :=
  ⟨Data.member? [.noPointer, .referenceOnly, .anyPointer] PointerKind.name⟩

instance : ToData ClassTy where
  toData c := .record [("name", toData c.name), ("fields", toData c.fields),
    ("deinit", toData c.deinit)]

instance : OfData ClassTy where
  ofData? d := do
    let d ← d.asRecord? ["name", "fields", "deinit"]
    return { name := ← d.get? "name", fields := ← d.get? "fields", deinit := ← d.opt? "deinit" }

instance : ToData Ty where
  toData
    | .scalar => .text "Scalar"
    | .rawPointer => .text "RawPointer"
    | .unknown => .text "Opaque"
    | .object c => .record [("Class", toData c)]
    | .box t => .record [("Box", toData t)]
    | .address t => .record [("Address", toData t)]
    | .aggregate ts => .record [("Aggregate", toData ts)]
    | .function thick => .variant "Function" [("thick", toData thick)]

instance : OfData Ty where
  ofData? d := do
    match ← d.variant? with
    | ("Scalar", .null) => return .scalar
    | ("RawPointer", .null) => return .rawPointer
    | ("Opaque", .null) => return .unknown
    | ("Class", d) => return .object (← ofData? d)
    | ("Box", d) => return .box (← ofData? d)
    | ("Address", d) => return .address (← ofData? d)
    | ("Aggregate", d) => return .aggregate (← ofData? d)
    | ("Function", d) => return .function (← d.get? "thick")
    | _ => none

instance : ToData TypeEntry where
  toData e := .record [("ty", toData e.ty), ("pointer_kind", toData e.kind)]

instance : OfData TypeEntry where
  ofData? d := do
    let d ← d.asRecord? ["ty", "pointer_kind"]
    return { ty := ← d.get? "ty", kind := ← d.get? "pointer_kind" }

instance : ToData TypeTable := ⟨fun t => .record [("entries", toData t.entries)]⟩

instance : OfData TypeTable where
  ofData? d := do
    let d ← d.asRecord? ["entries"]
    return { entries := ← d.get? "entries" }

/-! ## Functions -/

/-- The name of a convention. -/
def Convention.name : Convention → String
  | owned => "Owned"
  | guaranteed => "Guaranteed"
  | exclusive => "Exclusive"

instance : ToData Convention := ⟨fun c => .text c.name⟩

instance : OfData Convention := ⟨Data.member? [.owned, .guaranteed, .exclusive] Convention.name⟩

instance : ToData Param where
  toData p := .record [("ty", toData p.ty), ("convention", toData p.convention)]

instance : OfData Param where
  ofData? d := do
    let d ← d.asRecord? ["ty", "convention"]
    return { ty := ← d.get? "ty", convention := ← d.get? "convention" }

instance : ToData Origin where
  toData
    | .argument i => .record [("Argument", toData i)]
    | .blockArg b i => .variant "BlockArg" [("block", toData b), ("index", toData i)]
    | .result j i => .variant "Result" [("inst", toData j), ("index", toData i)]
    | .undefined => .text "Undef"

instance : OfData Origin where
  ofData? d := do
    match ← d.variant? with
    | ("Undef", .null) => return .undefined
    | ("Argument", d) => return .argument (← ofData? d)
    | ("BlockArg", d) => return .blockArg (← d.get? "block") (← d.get? "index")
    | ("Result", d) => return .result (← d.get? "inst") (← d.get? "index")
    | _ => none

instance : ToData Value where
  toData v := .record [("ty", toData v.ty), ("def", toData v.origin)]

instance : OfData Value where
  ofData? d := do
    let d ← d.asRecord? ["ty", "def"]
    return { ty := ← d.get? "ty", origin := ← d.get? "def" }

instance : ToData Block where
  toData b := .record [("args", toData b.args), ("insts", toData b.insts)]

instance : OfData Block where
  ofData? d := do
    let d ← d.asRecord? ["args", "insts"]
    return { args := ← d.get? "args", insts := ← d.get? "insts" }

instance : ToData Inst where
  toData i := .record [("kind", toData i.op), ("results", toData i.results),
    ("block", toData i.block), ("deleted", toData i.deleted)]

instance : OfData Inst where
  ofData? d := do
    let d ← d.asRecord? ["kind", "results", "block", "deleted"]
    return { op := ← d.get? "kind", results := ← d.get? "results", block := ← d.get? "block",
             deleted := ← d.get? "deleted" }

instance : ToData Func where
  toData f := .record [("name", toData f.name), ("params", toData f.params),
    ("return_ty", toData f.returnTy), ("blocks", toData f.blocks), ("insts", toData f.insts),
    ("values", toData f.values)]

instance : OfData Func where
  ofData? d := do
    let d ← d.asRecord? ["name", "params", "return_ty", "blocks", "insts", "values"]
    return { name := ← d.get? "name", params := ← d.get? "params", returnTy := ← d.opt? "return_ty",
             blocks := ← d.get? "blocks", insts := ← d.get? "insts", values := ← d.get? "values" }

/-! ## Programs -/

instance : ToData Program where
  toData p := .record [("types", toData p.types), ("functions", toData p.funcs)]

instance : OfData Program where
  ofData? d := do
    let d ← d.asRecord? ["types", "functions"]
    return { types := ← d.get? "types", funcs := ← d.get? "functions" }

end Escape
