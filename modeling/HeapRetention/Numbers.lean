/-!
Sums, powers and orders of natural numbers, and the largest values of machine words.
-/

namespace HeapRetention

/-- The sum of a list. -/
def total (ns : List Nat) : Nat :=
  ns.foldl (· + ·) 0

def powerOfTwo (n : Nat) : Nat :=
  Nat.pow 2 n

def powerOfTen (n : Nat) : Nat :=
  Nat.pow 10 n

/-- The largest value of 16 bits. -/
def shortMax : Nat :=
  0xFFFF

/-- The largest value of 32 bits. -/
def wordMax : Nat :=
  0xFFFFFFFF

/-- The largest value of 64 bits. -/
def longMax : Nat :=
  0xFFFFFFFFFFFFFFFF

/-- An order of numbers by sizes: the larger size comes first, and of equal sizes the lesser number. -/
def largerFirst (size : Nat → Nat) (a b : Nat) : Bool :=
  if size a = size b then a ≤ b else size b < size a

theorem foldl_add_eq (ns : List Nat) (n : Nat) : ns.foldl (· + ·) n = n + total ns := by
  induction ns generalizing n with
  | nil => rfl
  | cons m ns ih =>
    unfold total
    rw [List.foldl_cons, List.foldl_cons, ih, ih (0 + m), Nat.zero_add, Nat.add_assoc]

@[simp]
theorem total_nil : total [] = 0 :=
  rfl

@[simp]
theorem total_cons (n : Nat) (ns : List Nat) : total (n :: ns) = n + total ns := by
  rw [total, List.foldl_cons, Nat.zero_add]
  exact foldl_add_eq ns n

theorem powerOfTwo_add (m n : Nat) : powerOfTwo (m + n) = powerOfTwo m * powerOfTwo n :=
  Nat.pow_add 2 m n

theorem powerOfTwo_pos (n : Nat) : 0 < powerOfTwo n :=
  Nat.pow_pos (by decide : 0 < 2)

end HeapRetention
