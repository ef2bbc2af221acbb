import Mathlib

/-!
# Branch-free selection

Constant-time code turns a condition into a word of all ones or all zeros and selects with it:

* `negBool b` : `-(b)`, the mask of a condition;
* `maskedSelect mask new old` : `(new & mask) | (old & ~mask)`;
* the simp lemmas read both off for the two masks.
-/

namespace SgxOram.Lib

/-- `-(b)` for a C++ `bool` converted to a 32-bit word: all ones or zero. -/
def negBool (b : Bool) : UInt32 := -b.toUInt32

/-- `(new & mask) | (old & ~mask)`. -/
def maskedSelect (mask new old : UInt32) : UInt32 := (new &&& mask) ||| (old &&& ~~~mask)

@[simp] theorem false_toUInt8 : false.toUInt8 = 0 := rfl

@[simp] theorem true_toUInt8 : true.toUInt8 = 1 := rfl

@[simp] theorem false_toUInt32 : false.toUInt32 = 0 := rfl

@[simp] theorem true_toUInt32 : true.toUInt32 = 1 := rfl

@[simp] theorem false_toUInt64 : false.toUInt64 = 0 := rfl

@[simp] theorem true_toUInt64 : true.toUInt64 = 1 := rfl

@[simp] theorem negBool_false : negBool false = 0 := rfl

@[simp] theorem negBool_true : negBool true = -1 := rfl

@[simp] theorem maskedSelect_zero (new old : UInt32) : maskedSelect 0 new old = old := by
  simp [maskedSelect]

@[simp] theorem maskedSelect_ones (new old : UInt32) : maskedSelect (-1) new old = new := by
  simp [maskedSelect]

@[simp] theorem ones_bne_zero : ((-1 : UInt32) != 0) = true := rfl

end SgxOram.Lib
