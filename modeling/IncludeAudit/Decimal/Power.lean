/-!
# IncludeAudit.Decimal.Power

Powers of the two bases, as natural numbers.
-/

namespace IncludeAudit
namespace Decimal

def twoTo (n : Nat) : Nat := Nat.pow 2 n

def tenTo (n : Nat) : Nat := Nat.pow 10 n

end Decimal
end IncludeAudit
