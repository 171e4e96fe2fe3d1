/-!
# Powers of two and ten

The bounds of machine words and the scales of binary and decimal numbers.
-/
namespace AvroIdl

def pow2 (n : Nat) : Nat := Nat.pow 2 n

def pow10 (n : Nat) : Nat := Nat.pow 10 n

end AvroIdl
