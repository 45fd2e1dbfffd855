import Calculator.Expr.Reading

namespace Calculator

/-- The four rules of the grammar, from the tightest to the loosest. -/
inductive Level where
  | primary
  | unary
  | product
  | sum
deriving DecidableEq

/-- The rule in which an operation joins two operands. -/
def Operation.level : Operation → Level
  | .add | .subtract => .sum
  | .multiply | .divide => .product

/-- Tokens that a rule derives, with the tree of the derivation. Products and sums grow to the
right of what they already hold, so their trees lean to the left. -/
inductive Derives : Level → List Token → Expr → Prop where
  | number (x : Binary64) : Derives .primary [.number x] (.number x)
  | group {ts : List Token} {e : Expr} (inner : Derives .sum ts e) :
      Derives .primary (.symbol .opening :: ts ++ [.symbol .closing]) e
  | primary {ts : List Token} {e : Expr} (h : Derives .primary ts e) : Derives .unary ts e
  | minus {ts : List Token} {e : Expr} (operand : Derives .unary ts e) :
      Derives .unary (.symbol .minus :: ts) (.negate e)
  | unary {ts : List Token} {e : Expr} (h : Derives .unary ts e) : Derives .product ts e
  | scale {ls rs : List Token} {l r : Expr} (op : Operation) (level : op.level = .product)
      (left : Derives .product ls l) (right : Derives .unary rs r) :
      Derives .product (ls ++ .symbol op.symbol :: rs) (.binary op l r)
  | product {ts : List Token} {e : Expr} (h : Derives .product ts e) : Derives .sum ts e
  | combine {ls rs : List Token} {l r : Expr} (op : Operation) (level : op.level = .sum)
      (left : Derives .sum ls l) (right : Derives .product rs r) :
      Derives .sum (ls ++ .symbol op.symbol :: rs) (.binary op l r)

def openings (ts : List Token) : Nat := ts.count (.symbol .opening)

def closings (ts : List Token) : Nat := ts.count (.symbol .closing)

/-- At no point are more than `n` groups open. -/
def NestsWithin (n : Nat) (ts : List Token) : Prop :=
  ∀ before, before <+: ts → openings before ≤ closings before + n

@[simp] theorem openings_nil : openings [] = 0 := rfl

@[simp] theorem closings_nil : closings [] = 0 := rfl

@[simp] theorem openings_append (ts us : List Token) :
    openings (ts ++ us) = openings ts + openings us := List.count_append

@[simp] theorem closings_append (ts us : List Token) :
    closings (ts ++ us) = closings ts + closings us := List.count_append

@[simp] theorem openings_cons (t : Token) (ts : List Token) :
    openings (t :: ts) = (if t = .symbol .opening then 1 else 0) + openings ts := by
  simp [openings, List.count_cons, Nat.add_comm]

@[simp] theorem closings_cons (t : Token) (ts : List Token) :
    closings (t :: ts) = (if t = .symbol .closing then 1 else 0) + closings ts := by
  simp [closings, List.count_cons, Nat.add_comm]

/-- A run of minus signs in front of an operand negates it as often. -/
theorem Derives.minuses {ts : List Token} {e : Expr} (h : Derives .unary ts e) (n : Nat) :
    Derives .unary (List.replicate n (.symbol .minus) ++ ts) (.negateTimes n e) := by
  induction n with
  | zero => exact h
  | succ n ih => exact .minus ih

end Calculator
