/-! The interrupt cell: zero while it is clear. Once signalled it stays set until it is
cleared. -/

namespace Stepwise

abbrev Cell := Int

namespace Cell

def clear : Cell := 0

def signalled : Cell := 2

def isSet (c : Cell) : Bool :=
  c != 0

end Cell

end Stepwise
