set_option autoImplicit false

namespace MachineLang

structure Location where
  source : Nat
  start : Nat
  stop : Nat
  start_le_stop : start ≤ stop := by omega
  deriving DecidableEq

namespace Location

inductive Error where
  | reversed
  deriving DecidableEq

def Error.message : Error → String
  | reversed => "assertion failed: start.raw <= end.raw"

def ofOffsets (source start stop : Nat) : Except Error Location :=
  if h : start ≤ stop then .ok ⟨source, start, stop, h⟩ else .error .reversed

def text (l : Location) : String :=
  "#" ++ toString l.source ++ "@" ++ toString l.start ++ ".." ++ toString l.stop

theorem ofOffsets_offsets (l : Location) : ofOffsets l.source l.start l.stop = .ok l := by
  simp [ofOffsets, l.start_le_stop]

theorem ofOffsets_eq_error_iff (source start stop : Nat) :
    ofOffsets source start stop = .error .reversed ↔ stop < start := by
  unfold ofOffsets
  split <;> simp_all

end Location
end MachineLang
