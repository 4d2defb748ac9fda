/-!
# Code points

* The instances that every comparison of texts and every code point written as a number uses.
-/

namespace Lib

/-- There are code points. -/
instance (priority := 2000) neZero_codePoints : @NeZero Nat Zero.ofOfNat0 0x110000 := ⟨by decide⟩

instance (priority := 2000) lawfulBEq_codePoint : @LawfulBEq (Fin 0x110000) instBEqOfDecidableEq := instLawfulBEq

instance (priority := 2000) lawfulBEq_text : @LawfulBEq (List (Fin 0x110000)) List.instBEq := List.instLawfulBEq

end Lib
