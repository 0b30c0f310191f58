import Mathlib

/-! What the two kinds of tables have in common (`erl_db.c`, `erl_db_util.h`). -/

namespace Otp.Ets

/-- Return codes of the table methods. -/
inductive DbError where
  | none | sysres | badKey | badParam | unspec
  deriving DecidableEq, Repr

/-- A value stored in a C `int`. -/
def cInt (value : Int) : Int := value.bmod (2 ^ 32)

end Otp.Ets
