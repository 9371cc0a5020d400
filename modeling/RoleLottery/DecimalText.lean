import RoleLottery.Decimal.Layout
import RoleLottery.Decimal.Reader

/-!
# Numbers as text

The displayed form of a number and the reading of it.
-/

namespace RoleLottery

class DecimalText (ν : Type) where
  write : ν → String
  read? : List Char → Option ν

instance : DecimalText Float where
  write := NumberStyle.display.write
  read? := Decimal.read?

end RoleLottery
