import QuantumOps.Proofs.Expression.Bytes
import QuantumOps.Proofs.Expression.Calls
import QuantumOps.Proofs.Expression.Location

/-! What the machine comes to. Each of its procedures, with the tokens from the one in sight on
before it, ends with the value that the reader gives the phrase and with the tokens that the reader
leaves, or halts with the failure of the reader; so that the machine halts on every text, with the
value of the text or its failure. -/
namespace QuantumOps.Expression

/-- What is in sight before the tokens. -/
def Sight.first (ending : Ending) : List Token → Sight
  | [] => .ending ending
  | t :: _ => .token t

theorem Sight.eq_first {sight : Sight} {after : Cursor} {ts : List Token} {ending : Ending}
    (h : sight.tokens after = ⟨ts, ending⟩) : sight = first ending ts := by
  cases sight <;> cases h <;> rfl

namespace Config

variable {V : Type}

/-- The tokens from the one in sight on. -/
def tokens (c : Config V) : Tokens := c.sight.tokens c.place

/-- What waits in the machine, and the tokens from the one in sight on. -/
structure Shows (c : Config V) (waiting : List (Call × Frame V)) (ts : List Token)
    (ending : Ending) : Prop where
  waiting : c.waiting = waiting
  tokens : c.tokens = ⟨ts, ending⟩

/-- The same of a machine that runs a procedure at the point. -/
structure At (c : Config V) (p : Point V) (waiting : List (Call × Frame V)) (ts : List Token)
    (ending : Ending) : Prop extends c.Shows waiting ts ending where
  running : ∃ call, c.control = .running call p

/-- The machine comes to what a reading comes to: it returns with the value and the same calls
waiting, or halts with the failure, and the tokens from the one in sight on are those left. -/
def Comes (alg : Algebra V) (waiting : List (Call × Frame V)) (ending : Ending) (c : Config V)
    {n : Nat} : Reading V n → Prop
  | .done v rest _ => ∃ k, ((step alg)^[k] c).control = .returned v ∧
      ((step alg)^[k] c).Shows waiting rest ending
  | .failed e rest => ∃ k, ((step alg)^[k] c).control = .halted (.error e) ∧
      ((step alg)^[k] c).tokens = ⟨rest, ending⟩

section
variable {alg : Algebra V} {waiting : List (Call × Frame V)} {ending : Ending} {c : Config V}
  {m n : Nat} {ts rest : List Token} {call : Call} {p : Point V} {a : Action V}

theorem Comes.of_step {r : Reading V n} (h : Comes alg waiting ending (c.step alg) r) :
    Comes alg waiting ending c r := by
  cases r with
  | done v rest hlt =>
    obtain ⟨k, h⟩ := h
    exact ⟨k + 1, h⟩
  | failed e rest =>
    obtain ⟨k, h⟩ := h
    exact ⟨k + 1, h⟩

theorem Comes.of_steps {r : Reading V n} (k : Nat)
    (h : Comes alg waiting ending ((step alg)^[k] c) r) : Comes alg waiting ending c r := by
  induction k generalizing c with
  | zero => exact h
  | succ k ih => exact .of_step (ih h)

theorem Comes.widen {r : Reading V m} {hmn : m ≤ n} (h : Comes alg waiting ending c r) :
    Comes alg waiting ending c (r.widen hmn) := by
  cases r <;> exact h

/-- A procedure that waits goes on with the value it gets, and fails where the other fails. -/
theorem Comes.andThen {r : Reading V m} {frame : Frame V}
    {next : V → (rest : List Token) → rest.length < m → Reading V n}
    (h : Comes alg ((call, frame) :: waiting) ending c r)
    (hn : ∀ v rest hlt (d : Config V), d.Shows waiting rest ending →
      Comes alg waiting ending (d.perform call (frame.resume alg v)) (next v rest hlt)) :
    Comes alg waiting ending c (r.andThen next) := by
  cases r with
  | failed e rest => exact h
  | done v rest hlt =>
    obtain ⟨k, hcontrol, hwaiting, htokens⟩ := h
    refine .of_steps k (.of_step ?_)
    have hstep : ((step alg)^[k] c).step alg =
        { (step alg)^[k] c with waiting := waiting }.perform call (frame.resume alg v) := by
      rw [step, hcontrol]
      simp only [hwaiting, hcontrol]
    rw [hstep]
    exact hn v rest hlt _ ⟨rfl, htokens⟩

/-! The actions of a procedure. -/

theorem Shows.goto (h : c.Shows waiting ts ending) :
    (c.perform call (.goto p)).At p waiting ts ending :=
  ⟨⟨h.waiting, h.tokens⟩, _, rfl⟩

theorem Shows.head (h : c.Shows waiting ts ending) :
    (c.perform call (.head p)).At p waiting ts ending :=
  ⟨⟨h.waiting, h.tokens⟩, _, rfl⟩

theorem Shows.enter {frame : Frame V} (h : c.Shows waiting ts ending) :
    (c.perform call (.call p frame)).At p ((call, frame) :: waiting) ts ending :=
  ⟨⟨congrArg _ h.waiting, h.tokens⟩, _, rfl⟩

theorem Shows.give {v : V} {hlt : ts.length < n} (h : c.Shows waiting ts ending) :
    Comes alg waiting ending (c.perform call (.give v)) (.done v ts hlt) :=
  ⟨0, rfl, h.waiting, h.tokens⟩

theorem Shows.fail {e : Error} (h : c.Shows waiting ts ending) :
    Comes alg waiting ending (c.perform call (.fail e)) (.failed e ts : Reading V n) :=
  ⟨0, rfl, h.tokens⟩

/-- A procedure that only hands on the value of the one that it calls. -/
theorem Comes.tail {r : Reading V n} {frame : Frame V}
    (h : Comes alg ((call, frame) :: waiting) ending c r)
    (hf : ∀ v, frame.resume alg v = .give v) : Comes alg waiting ending c r := by
  have hnext : Comes alg waiting ending c (r.andThen fun v rest hlt => .done v rest hlt) :=
    h.andThen fun v rest hlt d hd => hf v ▸ hd.give
  cases r <;> exact hnext

/-- A procedure acts on what is in sight. -/
theorem At.now {r : Reading V n} (h : c.At p waiting ts ending)
    (hm : p.move alg (Sight.first ending ts) = .now a)
    (hn : ∀ call (d : Config V), d.Shows waiting ts ending →
      Comes alg waiting ending (d.perform call a) r) : Comes alg waiting ending c r := by
  obtain ⟨call, hcontrol⟩ := h.running
  have hsight : c.sight = Sight.first ending ts := Sight.eq_first h.tokens
  have hstep : c.step alg = c.perform call a := by
    rw [step, hcontrol]
    simp only [hsight, hm]
  refine .of_step ?_
  rw [hstep]
  exact hn call c h.toShows

/-- A procedure acts after it has asked for a token. -/
theorem comes_past {next : Reading V n} (hc : c.control = .running call p)
    (hm : p.move alg c.sight = .past a) (hd : c.ask.Shows waiting ts ending)
    (hn : Comes alg waiting ending (c.ask.perform call a) next) :
    Comes alg waiting ending c (past ending ts next) := by
  have hsight : c.ask.sight = Sight.first ending ts := Sight.eq_first hd.tokens
  refine .of_step ?_
  rw [step, hc]
  simp only [hm, hsight]
  cases ts with
  | nil =>
    cases ending with
    | endOfText column => exact hn
    | fault cause column => exact ⟨0, rfl, hd.tokens⟩
  | cons t rest => exact hn

/-- A procedure acts after it has passed the token in sight. -/
theorem At.past {t : Token} {next : Reading V n} (h : c.At p waiting (t :: ts) ending)
    (hm : p.move alg (.token t) = .past a)
    (hn : ∀ call (d : Config V), d.Shows waiting ts ending →
      Comes alg waiting ending (d.perform call a) next) :
    Comes alg waiting ending c (past ending ts next) := by
  obtain ⟨call, hcontrol⟩ := h.running
  have hsight : c.sight = .token t := Sight.eq_first h.tokens
  have htokens : c.ask.tokens = ⟨ts, ending⟩ := by
    have hcons : (scan c.place.column c.place.left).cons t = ⟨t :: ts, ending⟩ := by
      rw [← h.tokens, Config.tokens, hsight]
      rfl
    cases hscan : scan c.place.column c.place.left with
    | mk us e =>
      rw [hscan] at hcons
      cases hcons
      exact c.place.request_tokens.trans hscan
  exact comes_past hcontrol (hsight ▸ hm) ⟨h.waiting, htokens⟩ (hn call c.ask ⟨h.waiting, htokens⟩)

end

/-! The procedures. The induction is the recursion of the reader: on the tokens left, and for as many
tokens on the order in which the procedures call each other. -/

section
variable {alg : Algebra V} {ending : Ending}

theorem sum_nil : Expression.sum alg ending [] = missing .operand ending [] := by
  rw [Expression.sum, product, unary]
  rfl

theorem power_nil : Expression.power alg ending [] = missing .operand ending [] := by
  rw [Expression.power, primary]
  rfl

theorem past_andThen {W : Type} {m n : Nat} {r : Reading V m} {ts : List Token}
    {next : V → (rest : List Token) → rest.length < m → Reading W n} :
    (past ending ts r).andThen next = past ending ts (r.andThen next) := by
  cases ts with
  | nil => cases ending <;> rfl
  | cons t rest => rfl

variable {waiting : List (Call × Frame V)} {c : Config V} {n : Nat}

/-- The parenthesis that closes a sum. -/
theorem closing_comes {v : V} {ts : List Token}
    {hb : ∀ rest : List Token, rest.length < ts.length → rest.length < n}
    (h : c.At (.closing v) waiting ts ending) :
    Comes alg waiting ending c ((close ending .closingParen ts).andThen fun _ last hlt =>
      .done (alg.group v) last (hb last hlt)) := by
  cases ts with
  | nil => exact h.now rfl fun _ _ hd => hd.fail
  | cons t ts =>
    rw [close]
    by_cases hk : t.kind = .rightParen
    · rw [if_pos hk, past_andThen]
      exact h.past (if_pos hk) fun _ _ hd => hd.give
    · rw [if_neg hk]
      exact h.now (if_neg hk) fun _ _ hd => hd.fail

/-- The parenthesis that closes a call. -/
theorem argumentsEnd_comes {f : Token} {args : List V} {ts : List Token}
    (h : c.At (.argumentsEnd f args) waiting ts ending) :
    Comes alg waiting ending c (apply alg ending f args ts) := by
  cases ts with
  | nil => exact h.now rfl fun _ _ hd => hd.fail
  | cons t ts =>
    rw [apply, close]
    by_cases hk : t.kind = .rightParen
    · rw [if_pos hk, past_andThen]
      refine h.past (if_pos hk) fun _ _ hd => ?_
      rw [Reading.andThen, Point.move.apply]
      cases alg.call f.lexeme args with
      | some v => exact hd.give
      | none => exact hd.fail
    · rw [if_neg hk]
      exact h.now (if_neg hk) fun _ _ hd => hd.fail

theorem value_comes {call : Call} {f : Token} {ts : List Token} {hlt : ts.length < n}
    (h : c.Shows waiting ts ending) :
    Comes alg waiting ending (c.perform call (Point.move.value alg f)) (value alg f ts hlt) := by
  rw [value, Point.move.value]
  cases alg.name f.lexeme with
  | some v => exact h.give
  | none => exact h.fail

mutual

theorem sum_comes {c : Config V} {waiting : List (Call × Frame V)} (ts : List Token)
    (h : c.At .sum waiting ts ending) :
    Comes alg waiting ending c (Expression.sum alg ending ts) := by
  rw [Expression.sum]
  exact h.now rfl fun _ d hd => (product_comes ts hd.enter).andThen fun left rest hlt d hd =>
    (sumTail_comes left rest hd.head).widen
termination_by (ts.length, 7)

theorem sumTail_comes {c : Config V} {waiting : List (Call × Frame V)} (left : V) (ts : List Token)
    (h : c.At (.sumHead left) waiting ts ending) :
    Comes alg waiting ending c (sumTail alg ending left ts) := by
  match ts with
  | [] =>
    rw [sumTail]
    exact h.now rfl fun _ _ hd => hd.give
  | t :: ts =>
    rw [sumTail]
    by_cases hk : t.kind = .plus ∨ t.kind = .minus
    · rw [if_pos hk]
      exact h.past (if_pos hk) fun _ d hd =>
        (product_comes ts hd.enter).andThen fun right rest hlt d hd =>
          (sumTail_comes _ rest hd.head).widen
    · rw [if_neg hk]
      exact h.now (if_neg hk) fun _ _ hd => hd.give
termination_by (ts.length, 0)

theorem product_comes {c : Config V} {waiting : List (Call × Frame V)} (ts : List Token)
    (h : c.At .product waiting ts ending) :
    Comes alg waiting ending c (product alg ending ts) := by
  rw [product]
  exact h.now rfl fun _ d hd => (unary_comes ts hd.enter).andThen fun left rest hlt d hd =>
    (productTail_comes left rest hd.head).widen
termination_by (ts.length, 6)

theorem productTail_comes {c : Config V} {waiting : List (Call × Frame V)} (left : V)
    (ts : List Token) (h : c.At (.productHead left) waiting ts ending) :
    Comes alg waiting ending c (productTail alg ending left ts) := by
  match ts with
  | [] =>
    rw [productTail]
    exact h.now rfl fun _ _ hd => hd.give
  | t :: ts =>
    rw [productTail]
    by_cases hk : t.kind = .star ∨ t.kind = .slash
    · rw [if_pos hk]
      refine h.past (if_pos hk) fun _ d hd =>
        (unary_comes ts hd.enter).andThen fun right rest hlt d hd => ?_
      rw [Frame.resume]
      cases if t.kind = .star then some (alg.mul left right) else alg.div left right with
      | some v => exact (productTail_comes v rest hd.head).widen
      | none => exact hd.fail
    · rw [if_neg hk]
      exact h.now (if_neg hk) fun _ _ hd => hd.give
termination_by (ts.length, 0)

theorem unary_comes {c : Config V} {waiting : List (Call × Frame V)} (ts : List Token)
    (h : c.At .unary waiting ts ending) :
    Comes alg waiting ending c (unary alg ending ts) := by
  match ts with
  | [] =>
    -- at the end of the text it is the primary, two calls further down, that fails
    rw [unary, ← power_nil]
    exact h.now rfl fun _ d hd => (power_comes [] hd.enter).tail fun _ => rfl
  | t :: ts =>
    rw [unary]
    by_cases hk : t.kind = .minus ∨ t.kind = .plus
    · rw [if_pos hk]
      exact h.past (if_pos hk) fun _ d hd =>
        (unary_comes ts hd.enter).andThen fun v rest hlt d hd => hd.give
    · rw [if_neg hk]
      exact h.now (if_neg hk) fun _ d hd => (power_comes (t :: ts) hd.enter).tail fun _ => rfl
termination_by (ts.length, 5)

theorem power_comes {c : Config V} {waiting : List (Call × Frame V)} (ts : List Token)
    (h : c.At .power waiting ts ending) :
    Comes alg waiting ending c (power alg ending ts) := by
  rw [Expression.power]
  exact h.now rfl fun _ d hd => (primary_comes ts hd.enter).andThen fun base rest hlt d hd =>
    (powerTail_comes base rest hd.goto).widen
termination_by (ts.length, 4)

theorem powerTail_comes {c : Config V} {waiting : List (Call × Frame V)} (base : V)
    (ts : List Token) (h : c.At (.exponent base) waiting ts ending) :
    Comes alg waiting ending c (powerTail alg ending base ts) := by
  match ts with
  | [] =>
    rw [powerTail]
    exact h.now rfl fun _ _ hd => hd.give
  | t :: ts =>
    rw [powerTail]
    by_cases hk : t.kind = .caret
    · rw [if_pos hk]
      exact h.past (if_pos hk) fun _ d hd =>
        (unary_comes ts hd.enter).andThen fun v rest hlt d hd => hd.give
    · rw [if_neg hk]
      exact h.now (if_neg hk) fun _ _ hd => hd.give
termination_by (ts.length, 0)

theorem primary_comes {c : Config V} {waiting : List (Call × Frame V)} (ts : List Token)
    (h : c.At .primary waiting ts ending) :
    Comes alg waiting ending c (primary alg ending ts) := by
  match ts with
  | [] =>
    rw [primary]
    exact h.now rfl fun _ _ hd => hd.fail
  | t :: ts =>
    rw [primary]
    cases hk : t.kind with
    | number =>
      have hm : Point.move alg .primary (.token t) = .past (.give (alg.number t.lexeme)) := by
        simp only [Point.move, hk]
      exact h.past hm fun _ _ hd => hd.give
    | identifier =>
      have hm : Point.move alg .primary (.token t) = .past (.goto (.name t)) := by
        simp only [Point.move, hk]
      exact h.past hm fun _ d hd => named_comes t ts hd.goto
    | leftParen =>
      have hm : Point.move alg .primary (.token t) = .past (.call .sum .group) := by
        simp only [Point.move, hk]
      exact h.past hm fun _ d hd =>
        (sum_comes ts hd.enter).andThen fun v rest hlt d hd => closing_comes hd.goto
    | _ =>
      have hm : Point.move alg .primary (.token t) =
          .now (.fail (Sight.unwanted .operand (.token t))) := by
        simp only [Point.move, hk]
      exact h.now hm fun _ _ hd => hd.fail
termination_by (ts.length, 3)

theorem named_comes {c : Config V} {waiting : List (Call × Frame V)} (name : Token)
    (ts : List Token) (h : c.At (.name name) waiting ts ending) :
    Comes alg waiting ending c (named alg ending name ts) := by
  match ts with
  | [] =>
    rw [named]
    exact h.now rfl fun _ _ hd => value_comes hd
  | t :: ts =>
    rw [named]
    by_cases hk : t.kind = .leftParen
    · rw [if_pos hk]
      exact h.past (if_pos hk) fun _ d hd =>
        ((arguments_comes name ts hd.enter).tail fun _ => rfl).widen
    · rw [if_neg hk]
      exact h.now (if_neg hk) fun _ _ hd => value_comes hd
termination_by (ts.length, 0)

theorem arguments_comes {c : Config V} {waiting : List (Call × Frame V)} (name : Token)
    (ts : List Token) (h : c.At (.arguments name) waiting ts ending) :
    Comes alg waiting ending c (arguments alg ending name ts) := by
  match ts with
  | [] =>
    rw [arguments]
    -- no argument and no parenthesis: the sum fails, whatever waits for it
    refine h.now rfl fun call d hd => ?_
    have hsum : Comes alg ((call, .argument name []) :: waiting) ending _
        (Expression.sum alg ending []) := sum_comes [] hd.enter
    rw [sum_nil] at hsum
    exact hsum
  | t :: ts =>
    rw [arguments]
    by_cases hk : t.kind = .rightParen
    · rw [if_pos hk]
      exact h.now (if_pos hk) fun _ _ hd => argumentsEnd_comes hd.goto
    · rw [if_neg hk]
      exact h.now (if_neg hk) fun _ d hd =>
        (sum_comes (t :: ts) hd.enter).andThen fun v rest hlt d hd =>
          (argumentsTail_comes name [v] rest hd.head).widen
termination_by (ts.length, 8)

theorem argumentsTail_comes {c : Config V} {waiting : List (Call × Frame V)} (name : Token)
    (args : List V) (ts : List Token) (h : c.At (.argumentsHead name args) waiting ts ending) :
    Comes alg waiting ending c (argumentsTail alg ending name args ts) := by
  match ts with
  | [] =>
    rw [argumentsTail]
    exact h.now rfl fun _ _ hd => argumentsEnd_comes hd.goto
  | t :: ts =>
    rw [argumentsTail]
    by_cases hk : t.kind = .comma
    · rw [if_pos hk]
      exact h.past (if_pos hk) fun _ d hd =>
        (sum_comes ts hd.enter).andThen fun v rest hlt d hd =>
          (argumentsTail_comes name (args ++ [v]) rest hd.head).widen
    · rw [if_neg hk]
      exact h.now (if_neg hk) fun _ _ hd => argumentsEnd_comes hd.goto
termination_by (ts.length, 0)

end

/-- The end of the text after the sum that it is. -/
theorem finished_comes {v : V} {ts : List Token} (h : c.At (.finished v) waiting ts ending) :
    Comes alg waiting ending c (finish ending v ts : Reading V (n + 1)) := by
  cases ts with
  | nil => exact h.now rfl fun _ _ hd => hd.give
  | cons t ts => exact h.now rfl fun _ _ hd => hd.fail

theorem start_comes (source : List Char) : Comes alg [] (scan 1 source).ending (start source)
    ((scan 1 source).reading alg) := by
  have hask : (start source : Config V).ask.Shows [] (scan 1 source).tokens
      (scan 1 source).ending := ⟨rfl, Cursor.request_tokens ⟨1, source⟩⟩
  refine comes_past rfl rfl hask ?_
  cases hts : (scan 1 source).tokens with
  | nil =>
    rw [hts] at hask
    exact hask.goto.now rfl fun _ _ hd => hd.fail
  | cons t ts =>
    rw [hts] at hask
    exact hask.goto.now rfl fun _ d hd =>
      (sum_comes (t :: ts) hd.enter).andThen fun v rest hlt d hd => finished_comes hd.goto

/-- On every text the machine halts with what the reader gives, where the reader stops. -/
theorem exists_halted (alg : Algebra V) (source : List Char) : ∃ k,
    ((step alg)^[k] (start source)).control = .halted ((scan 1 source).read alg) ∧
      ((step alg)^[k] (start source)).tokens =
        ⟨((scan 1 source).reading alg).left, (scan 1 source).ending⟩ := by
  have hcomes : Comes alg [] _ (start source) ((scan 1 source).reading alg) := start_comes source
  rw [Tokens.read_eq]
  cases hreading : (scan 1 source).reading alg with
  | failed e rest =>
    rw [hreading] at hcomes
    exact hcomes
  | done v rest hlt =>
    rw [hreading] at hcomes
    obtain ⟨k, hcontrol, hwaiting, htokens⟩ := hcomes
    refine ⟨k + 1, ?_⟩
    rw [Function.iterate_succ_apply', step, hcontrol]
    simp only [hwaiting]
    exact ⟨rfl, htokens⟩

end

end Config

/-- The requests made and the tokens from the one in sight on are all the tokens, and one more. -/
theorem Requests.length_add_tokens {source : List Char} {r : Request} {log : List Request}
    (h : Requests source (r :: log)) :
    (r :: log).length + (r.sight.tokens r.after).tokens.length =
      (scan 1 source).tokens.length + 1 := by
  generalize hlog : r :: log = requests at h
  induction h generalizing r log with
  | none => cases hlog
  | first =>
    cases hlog
    rw [Cursor.request_tokens]
    exact Nat.add_comm _ _
  | @again r log t h ht ih =>
    cases hlog
    have hbefore := ih rfl
    rw [ht] at hbefore
    simp only [Sight.tokens, Tokens.cons, List.length_cons] at hbefore
    rw [Cursor.request_tokens]
    simp only [List.length_cons]
    omega

/-- When the machine stands where the reader stops, it has made as many requests as the reader has
brought tokens into sight. -/
theorem Config.length_log {V : Type} {alg : Algebra V} {c : Config V}
    (h : Requests c.source c.log) (ht : c.tokens =
      ⟨((scan 1 c.source).reading alg).left, (scan 1 c.source).ending⟩) :
    c.log.length = (scan 1 c.source).requested alg := by
  cases hlog : c.log with
  | nil =>
    -- the text has an ending in some column, and nothing has been seen of it yet
    have hplaced := (scan_tiles c.source 0 (Nat.zero_le _)).ending_placed
    have hending : (scan 1 c.source).ending = .endOfText 0 := by
      rw [tokens, sight, hlog] at ht
      exact (congrArg Tokens.ending ht).symm
    rw [List.drop_zero, Nat.zero_add, hending] at hplaced
    cases hplaced.1
  | cons r log =>
    rw [hlog] at h
    have hlength := h.length_add_tokens
    have hleft : (r.sight.tokens r.after).tokens = ((scan 1 c.source).reading alg).left := by
      rw [tokens, sight, place, hlog] at ht
      exact congrArg Tokens.tokens ht
    rw [hleft] at hlength
    rw [Tokens.requested]
    omega

/-- Whatever the bytes of a text are and whatever its names stand for, the machine halts with the
value of the text or its failure, after as many requests as the reader brings tokens into sight. It
makes at most one request more than there are bytes; each passes a byte, unless the text has ended,
and is the last one, unless it brings a token. Of two calls of one procedure, one inside the other,
the inner is entered after more requests, and whenever a procedure comes to the head of its loop
again there have been more requests. -/
theorem evaluate_progress {R : Type} [Numeric R] (vars : Variables R) (bytes : List UInt8) :
    let text := String.ofList (bytewise bytes)
    let run (k : Nat) := (Config.step (numbers vars))^[k] (Config.start (bytewise bytes))
    (∃ k, (run k).control = .halted (evaluate vars text) ∧
      (run k).log.length = (tokenize text).requested (numbers vars)) ∧
    (∀ s : String, evaluate vars (String.ofList (bytewise s.toUTF8.data.toList)) =
      evaluate vars s) ∧
    ∀ k, Requests (bytewise bytes) (run k).log ∧ (run k).log.length ≤ bytes.length + 1 ∧
      (∀ r ∈ (run k).log, ∃ passed, r.Passes passed ∧ (r.sight.IsEnd ∨ passed ≠ [])) ∧
      (∀ r ∈ (run k).log.tail, ∃ t, r.sight = .token t) ∧
      ((run k).calls.Pairwise fun inner outer =>
        inner.procedure = outer.procedure → outer.entered < inner.entered) ∧
      ∀ call ∈ (run k).calls, call.turns.Pairwise (· > ·) := by
  intro text run
  have hrequests : ∀ k, Requests (run k).source (run k).log := fun k =>
    (Config.sound_run (bytewise bytes) k).requests
  have hsource : ∀ k, (run k).source = bytewise bytes := Config.run_source (bytewise bytes)
  have htext : tokenize text = scan 1 (bytewise bytes) := by
    rw [tokenize, String.toList_ofList]
  refine ⟨?_, fun s => congrArg (Tokens.read (numbers vars)) (tokenize_bytewise s), fun k => ?_⟩
  · obtain ⟨k, hhalted, htokens⟩ := Config.exists_halted (numbers vars) (bytewise bytes)
    refine ⟨k, ?_, ?_⟩
    · rw [evaluate, htext]
      exact hhalted
    · rw [htext, ← hsource k]
      exact Config.length_log (hrequests k) (hsource k ▸ htokens)
  · have hlog : Requests (bytewise bytes) (run k).log := hsource k ▸ hrequests k
    have hlen : (bytewise bytes).length = bytes.length := List.length_map _
    have hsound : (run k).Sound := Config.sound_run (bytewise bytes) k
    exact ⟨hlog, hlen ▸ hlog.length_le, hlog.exists_passes, hlog.exists_token,
      hsound.nested.imp Call.Within.lt, hsound.turns⟩

/-- Between two parentheses that are opened and never closed. -/
theorem evaluate_progress_parentheses :
    let vars : Variables Float := Dict.empty
    let run (k : Nat) := (Config.step (numbers vars))^[k] (Config.start (bytewise [40, 40, 49]))
    let inner : Call := ⟨.sum, 3, []⟩
    let outer : Call := ⟨.sum, 2, []⟩
    (∃ k, (run k).control = .halted (evaluate vars "((1") ∧
      (run k).log.length = (tokenize "((1").requested (numbers vars)) ∧
    (run 12).log.length ≤ 4 ∧ [inner, outer].Sublist (run 12).calls ∧
      outer.entered < inner.entered := by
  intro vars run inner outer
  have hcalls : ((Config.step (numbers (Dict.empty : Variables Float)))^[12]
      (Config.start (bytewise [40, 40, 49]))).calls =
        [inner, ⟨.primary, 2, []⟩, ⟨.power, 2, []⟩, ⟨.unary, 2, []⟩, ⟨.product, 2, []⟩, outer,
          ⟨.primary, 1, []⟩, ⟨.power, 1, []⟩, ⟨.unary, 1, []⟩, ⟨.product, 1, []⟩, ⟨.sum, 1, []⟩,
          ⟨.whole, 0, []⟩] := rfl
  have hsublist : [inner, outer].Sublist (run 12).calls := by
    rw [hcalls]
    exact (List.singleton_sublist.mpr (by simp)).cons_cons inner
  obtain ⟨hhalted, -, hrun⟩ := evaluate_progress vars [40, 40, 49]
  obtain ⟨-, hlen, -, -, hnested, -⟩ := hrun 12
  exact ⟨hhalted, hlen, hsublist, (List.pairwise_pair.mp (hnested.sublist hsublist)) rfl⟩

end QuantumOps.Expression
