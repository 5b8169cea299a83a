import QuantumOps.Expression.Reader
import QuantumOps.Proofs.Expression.Requests

/-! A machine that reads a text while it asks for the tokens of it. It runs one procedure for each
kind of phrase; these call each other, the calls not yet ended standing on a stack, and a token is
asked for only when the one in sight is passed. Each call keeps how many requests had been made when
it was entered and whenever it came to the head of its loop. -/
namespace QuantumOps.Expression

/-- The procedures, one for the whole text, one for the arguments of a call and one for each phrase,
in the order in which they call each other without passing a token. -/
inductive Procedure
  | whole
  | arguments
  | sum
  | product
  | unary
  | power
  | primary
  deriving DecidableEq

def Procedure.rank (p : Procedure) : Nat := p.ctorIdx

/-- Where a procedure is that is running. The heads are those of loops. -/
inductive Point (V : Type)
  | start
  | begun
  | finished (v : V)
  | arguments (name : Token)
  | argumentsHead (name : Token) (args : List V)
  | argumentsEnd (name : Token) (args : List V)
  | sum
  | sumHead (left : V)
  | product
  | productHead (left : V)
  | unary
  | power
  | exponent (base : V)
  | primary
  | name (t : Token)
  | closing (v : V)

/-- What a procedure waits for that has called another one. -/
inductive Frame (V : Type)
  | whole
  | argument (name : Token) (args : List V)
  | sumFirst
  | sumNext (op : Token) (left : V)
  | productFirst
  | productNext (op : Token) (left : V)
  | sign (op : Token)
  | power
  | base
  | exponent (base : V)
  | group
  | called

/-- What a procedure does next. -/
inductive Action (V : Type)
  /-- Goes on at another point. -/
  | goto (p : Point V)
  /-- Comes to the head of its loop. -/
  | head (p : Point V)
  /-- Calls the procedure that begins at the point, and waits. -/
  | call (p : Point V) (frame : Frame V)
  /-- Ends with a value for the procedure that has called it. -/
  | give (v : V)
  | fail (e : Error)

/-- Whether a procedure acts on the token in sight, or passes it first. -/
inductive Move (V : Type)
  | now (a : Action V)
  | past (a : Action V)

/-- The failure of finding in sight what was not wanted. -/
def Sight.unwanted (wanted : Wanted) : Sight → Error
  | token t => .unexpected wanted (some t.lexeme) t.column
  | ending e => .unexpected wanted none e.column

section
variable {V : Type}

def Point.procedure : Point V → Procedure
  | start | begun | finished _ => .whole
  | arguments _ | argumentsHead .. | argumentsEnd .. => .arguments
  | sum | sumHead _ => .sum
  | product | productHead _ => .product
  | unary => .unary
  | power | exponent _ => .power
  | primary | name _ | closing _ => .primary

def Frame.procedure : Frame V → Procedure
  | whole => .whole
  | argument .. => .arguments
  | sumFirst | sumNext .. => .sum
  | productFirst | productNext .. => .product
  | sign _ | power => .unary
  | base | exponent _ => .power
  | group | called => .primary

variable (alg : Algebra V)

/-- What a procedure does at a point, given what is in sight. -/
def Point.move : Point V → Sight → Move V
  | start, _ => .past (.goto .begun)
  | begun, .ending e => .now (.fail (Sight.unwanted .anything (.ending e)))
  | begun, .token _ => .now (.call .sum .whole)
  | finished v, .ending _ => .now (.give v)
  | finished _, .token t => .now (.fail (Sight.unwanted .endOfText (.token t)))
  | sum, _ => .now (.call .product .sumFirst)
  | sumHead left, .token t =>
    if t.kind = .plus ∨ t.kind = .minus then .past (.call .product (.sumNext t left))
    else .now (.give left)
  | sumHead left, .ending _ => .now (.give left)
  | product, _ => .now (.call .unary .productFirst)
  | productHead left, .token t =>
    if t.kind = .star ∨ t.kind = .slash then .past (.call .unary (.productNext t left))
    else .now (.give left)
  | productHead left, .ending _ => .now (.give left)
  | unary, .token t =>
    if t.kind = .minus ∨ t.kind = .plus then .past (.call .unary (.sign t))
    else .now (.call .power .power)
  | unary, .ending _ => .now (.call .power .power)
  | power, _ => .now (.call .primary .base)
  | exponent base, .token t =>
    if t.kind = .caret then .past (.call .unary (.exponent base)) else .now (.give base)
  | exponent base, .ending _ => .now (.give base)
  | primary, .token t =>
    match t.kind with
    | .number => .past (.give (alg.number t.lexeme))
    | .identifier => .past (.goto (.name t))
    | .leftParen => .past (.call .sum .group)
    | _ => .now (.fail (Sight.unwanted .operand (.token t)))
  | primary, .ending e => .now (.fail (Sight.unwanted .operand (.ending e)))
  | name f, .token t =>
    if t.kind = .leftParen then .past (.call (.arguments f) .called) else .now (value f)
  | name f, .ending _ => .now (value f)
  | closing v, .token t =>
    if t.kind = .rightParen then .past (.give (alg.group v))
    else .now (.fail (Sight.unwanted .closingParen (.token t)))
  | closing _, .ending e => .now (.fail (Sight.unwanted .closingParen (.ending e)))
  | arguments f, .token t =>
    if t.kind = .rightParen then .now (.goto (.argumentsEnd f []))
    else .now (.call .sum (.argument f []))
  | arguments f, .ending _ => .now (.call .sum (.argument f []))
  | argumentsHead f args, .token t =>
    if t.kind = .comma then .past (.call .sum (.argument f args))
    else .now (.goto (.argumentsEnd f args))
  | argumentsHead f args, .ending _ => .now (.goto (.argumentsEnd f args))
  | argumentsEnd f args, .token t =>
    if t.kind = .rightParen then .past (apply f args)
    else .now (.fail (Sight.unwanted .closingCall (.token t)))
  | argumentsEnd _ _, .ending e => .now (.fail (Sight.unwanted .closingCall (.ending e)))
where
  /-- The value of a name that is not called. -/
  value (f : Token) : Action V :=
    match alg.name f.lexeme with
    | some v => .give v
    | none => .fail (.unset f.lexeme f.column)
  /-- The value of a call with its arguments. -/
  apply (f : Token) (args : List V) : Action V :=
    match alg.call f.lexeme args with
    | some v => .give v
    | none => .fail (.unknownFunction f.lexeme args.length f.column)

/-- What a procedure does with the value that it has been waiting for. -/
def Frame.resume : Frame V → V → Action V
  | whole, v => .goto (.finished v)
  | argument f args, v => .head (.argumentsHead f (args ++ [v]))
  | sumFirst, v => .head (.sumHead v)
  | sumNext op left, v =>
    .head (.sumHead (if op.kind = .plus then alg.add left v else alg.sub left v))
  | productFirst, v => .head (.productHead v)
  | productNext op left, v =>
    match if op.kind = .star then some (alg.mul left v) else alg.div left v with
    | some w => .head (.productHead w)
    | none => .fail (.zeroDivisor op.column)
  | sign op, v => .give (if op.kind = .minus then alg.neg v else alg.pos v)
  | power, v => .give v
  | base, v => .goto (.exponent v)
  | exponent x, v => .give (alg.pow x v)
  | group, v => .goto (.closing v)
  | called, v => .give v

end

/-- A call that has not ended: how many requests had been made when it was entered, and each time it
came to the head of its loop, the latest first. -/
structure Call where
  procedure : Procedure
  entered : Nat
  turns : List Nat

inductive Control (V : Type)
  | running (call : Call) (p : Point V)
  /-- A procedure has ended with a value. -/
  | returned (v : V)
  | halted (outcome : Except Error V)

/-- A state of the machine: the text, the requests so far, the latest first, the calls that wait,
the latest first, and what goes on. -/
structure Config (V : Type) where
  source : List Char
  log : List Request
  waiting : List (Call × Frame V)
  control : Control V

namespace Config

variable {V : Type}

/-- Where the next request is made. -/
def place (c : Config V) : Cursor :=
  match c.log with
  | [] => ⟨1, c.source⟩
  | r :: _ => r.after

/-- What the latest request has brought into sight, which is nothing before the first. -/
def sight (c : Config V) : Sight :=
  match c.log with
  | [] => .ending (.endOfText 0)
  | r :: _ => r.sight

def ask (c : Config V) : Config V := { c with log := c.place.request :: c.log }

/-- The running procedure acts. -/
def perform (c : Config V) (call : Call) : Action V → Config V
  | .goto p => { c with control := .running call p }
  | .head p =>
    { c with control := .running { call with turns := c.log.length :: call.turns } p }
  | .call p frame =>
    { c with
      waiting := (call, frame) :: c.waiting
      control := .running ⟨p.procedure, c.log.length, []⟩ p }
  | .give v => { c with control := .returned v }
  | .fail e => { c with control := .halted (.error e) }

/-- One step: a move of the running procedure, with at most one request, which halts the machine if
the text is at fault; or the return to the procedure that waits. -/
def step (alg : Algebra V) (c : Config V) : Config V :=
  match c.control with
  | .running call p =>
    match p.move alg c.sight with
    | .now a => c.perform call a
    | .past a =>
      match c.ask.sight with
      | .ending (.fault cause column) =>
        { c.ask with control := .halted (.error (.lexical cause column)) }
      | _ => c.ask.perform call a
  | .returned v =>
    match c.waiting with
    | [] => { c with control := .halted (.ok v) }
    | (call, frame) :: rest => { c with waiting := rest }.perform call (frame.resume alg v)
  | .halted _ => c

/-- The machine before its first request. -/
def start (source : List Char) : Config V := ⟨source, [], [], .running ⟨.whole, 0, []⟩ .start⟩

/-- The calls that have not ended, the latest first. -/
def calls (c : Config V) : List Call :=
  match c.control with
  | .running call _ => call :: c.waiting.map Prod.fst
  | _ => c.waiting.map Prod.fst

end Config
end QuantumOps.Expression
