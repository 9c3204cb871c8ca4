import MachineLang.Ty.Text
import MachineLang.Ty.Canonical

set_option autoImplicit false

namespace MachineLang

structure TypeId where
  index : Nat
  deriving DecidableEq

def TypeId.isBuiltin (id : TypeId) : Bool := Primitive.isBuiltin id.index

def Primitive.id (p : Primitive) : TypeId := ⟨p.index⟩

/-- Canonical types, each after its canonical text. -/
structure TypeTable where
  entries : List (String × Ty)

namespace TypeTable

def empty : TypeTable := ⟨[]⟩

def size (table : TypeTable) : Nat := table.entries.length

def isEmpty (table : TypeTable) : Bool := table.entries.isEmpty

def lookup (table : TypeTable) (t : Ty) : Option TypeId :=
  (table.entries.findIdx? (·.1 == t.canonicalText)).map TypeId.mk

def intern (table : TypeTable) (t : Ty) : TypeId × TypeTable :=
  match table.lookup t with
  | some id => (id, table)
  | none => (⟨table.size⟩, ⟨table.entries ++ [(t.canonicalText, t.canonicalize)]⟩)

def get? (table : TypeTable) (id : TypeId) : Option Ty := table.entries[id.index]?.map (·.2)

def name? (table : TypeTable) (id : TypeId) : Option String :=
  table.entries[id.index]?.map (·.1)

def internAll (table : TypeTable) (ts : List Ty) : TypeTable :=
  ts.foldl (fun table t => (table.intern t).2) table

def builtin : TypeTable := empty.internAll (Primitive.all.map .prim)

theorem intern_of_lookup {table : TypeTable} {t : Ty} {id : TypeId}
    (h : table.lookup t = some id) : table.intern t = (id, table) := by
  simp [intern, h]

theorem intern_of_not_lookup {table : TypeTable} {t : Ty} (h : table.lookup t = none) :
    table.intern t =
      (⟨table.size⟩, ⟨table.entries ++ [(t.canonicalText, t.canonicalize)]⟩) := by
  simp [intern, h]

theorem entries_builtin : builtin.entries = Primitive.all.map fun p => (p.keyword, .prim p) := by
  rfl

end TypeTable
end MachineLang
