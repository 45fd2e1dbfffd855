import Calculator.Expr
import Calculator.Fault

namespace Calculator

/-- Groups may be this many deep. -/
def maxNesting : Nat := 256

/-- What waits for its right operand in one group: a sum, a product and a run of minus signs. -/
structure Frame where
  sum : Option (Expr × Operation)
  product : Option (Expr × Operation)
  minuses : Nat
deriving DecidableEq

namespace Frame

def empty : Frame := ⟨none, none, 0⟩

def join : Option (Expr × Operation) → Expr → Expr
  | none, e => e
  | some (left, op), e => .binary op left e

/-- The product that an operand ends: minus signs bind first, then `*` and `/`. -/
def productTo (f : Frame) (operand : Expr) : Expr :=
  join f.product (.negateTimes f.minuses operand)

/-- The sum that a product ends. -/
def sumTo (f : Frame) (product : Expr) : Expr := join f.sum product

/-- The frame after an operator that follows a product. -/
def await (f : Frame) (product : Expr) (op : Operation) : Frame :=
  match op with
  | .add | .subtract => ⟨some (f.sumTo product, op), none, 0⟩
  | .multiply | .divide => ⟨f.sum, some (product, op), 0⟩

end Frame

/-- An expression that is being read: the current group, the groups around it from the inside out,
and the product that has just ended, which is absent while an operand is due. -/
structure Partial where
  frame : Frame
  outer : List Frame
  ended : Option Expr
deriving DecidableEq

namespace Partial

def start : Partial := ⟨.empty, [], none⟩

def endOperand (frame : Frame) (outer : List Frame) (operand : Expr) : Partial :=
  ⟨frame, outer, some (frame.productTo operand)⟩

/-- The step for one token, if it can go on there. At most `room` groups may be open. -/
def step (room : Nat) (p : Partial) (token : Token) : Option Partial :=
  match p.ended, token with
  | none, .number x => some (endOperand p.frame p.outer (.number x))
  | none, .symbol .minus =>
    some { p with frame := { p.frame with minuses := p.frame.minuses + 1 } }
  | none, .symbol .opening =>
    if p.outer.length < room then some ⟨.empty, p.frame :: p.outer, none⟩ else none
  | none, .symbol _ => none
  | some product, .symbol .closing =>
    match p.outer with
    | [] => none
    | frame :: outer => some (endOperand frame outer (p.frame.sumTo product))
  | some product, .symbol s =>
    (Operation.ofSymbol? s).map fun op => ⟨p.frame.await product op, p.outer, none⟩
  | some _, .number _ => none

end Partial

/-- A place in a list of tokens: what is left of it, how many tokens were used, and how many groups
were opened among them and not closed. -/
structure Cursor where
  rest : List Token
  position : Nat
  depth : Nat
deriving DecidableEq

namespace Cursor

def start (tokens : List Token) : Cursor := ⟨tokens, 0, 0⟩

def unexpected (c : Cursor) : Fault := .unexpected c.position c.rest.head?

/-- What reading amounts to where no step is possible. -/
def stop (c : Cursor) (p : Partial) : Except Fault Expr :=
  match p.ended, p.outer with
  | none, _ =>
    if c.rest.head? = some (.symbol .opening) then .error (.nestedTooDeep maxNesting)
    else .error c.unexpected
  | some product, [] => .ok (p.frame.sumTo product)
  | some _, _ :: _ => .error (.mismatched .missingClosing)

/-- Steps over the tokens as far as possible. `depth` is the depth where reading began. -/
def readFrom (depth : Nat) (p : Partial) (position : Nat) :
    List Token → Except Fault Expr × Cursor
  | [] => let c : Cursor := ⟨[], position, depth + p.outer.length⟩; (c.stop p, c)
  | token :: rest =>
    match p.step (maxNesting - depth) token with
    | some q => readFrom depth q (position + 1) rest
    | none =>
      let c : Cursor := ⟨token :: rest, position, depth + p.outer.length⟩
      (c.stop p, c)

/-- Reads the longest expression from here. A fault leaves the cursor where it was found, with the
groups open that were open there. -/
def expression (c : Cursor) : Except Fault Expr × Cursor :=
  readFrom c.depth .start c.position c.rest

/-- Reads an expression after which nothing is left. -/
def whole (c : Cursor) : Except Fault Expr × Cursor :=
  match c.expression with
  | (.error fault, d) => (.error fault, d)
  | (.ok e, d) => if d.rest.isEmpty then (.ok e, d) else (.error d.unexpected, d)

end Cursor

def parse (tokens : List Token) : Except Fault Expr := (Cursor.start tokens).whole.1

end Calculator
