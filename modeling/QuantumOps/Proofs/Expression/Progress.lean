import QuantumOps.Proofs.Expression.Soundness

/-! Reading goes forward: whatever it comes to, the tokens from the one in sight on are the last of
those it was given. -/
namespace QuantumOps.Expression

/-- The tokens from the one in sight on. -/
def Reading.left {V : Type} {n : Nat} : Reading V n → List Token
  | done _ rest _ => rest
  | failed _ rest => rest

section
variable {V W : Type} {m n : Nat} {ending : Ending} {ts : List Token}

@[simp] theorem Reading.done_left (v : V) (h : ts.length < n) : (done v ts h).left = ts := rfl

@[simp] theorem Reading.failed_left (e : Error) : (failed e ts : Reading V n).left = ts := rfl

@[simp] theorem Reading.widen_left (r : Reading V m) (h : m ≤ n) : (r.widen h).left = r.left := by
  cases r <;> rfl

theorem Reading.done_suffix (v : V) (h : ts.length < n) : (done v ts h).left <:+ ts :=
  List.suffix_refl ts

theorem Reading.andThen_left {r : Reading V m}
    {next : V → (rest : List Token) → rest.length < m → Reading W n} (hr : r.left <:+ ts)
    (hn : ∀ v rest h, (next v rest h).left <:+ rest) : (r.andThen next).left <:+ ts := by
  cases r with
  | done v rest h => exact (hn v rest h).trans hr
  | failed e rest => exact hr

theorem Reading.andThen_widen_left {r : Reading V m} {bound : List Token → Nat}
    {next : V → (rest : List Token) → Reading W (bound rest)}
    {h : ∀ rest : List Token, rest.length < m → bound rest ≤ n} (hr : r.left <:+ ts)
    (hn : ∀ v rest, rest.length < m → (next v rest).left <:+ rest) :
    (r.andThen fun v rest hlt => (next v rest).widen (h rest hlt)).left <:+ ts := by
  refine andThen_left hr fun v rest hlt => ?_
  rw [widen_left]
  exact hn v rest hlt

theorem past_left {next : Reading V n} (h : next.left <:+ ts) :
    (past ending ts next).left <:+ ts := by
  unfold past
  split
  · exact List.nil_suffix
  · exact h

@[simp] theorem missing_left (wanted : Wanted) :
    (missing wanted ending ts : Reading V n).left = ts := by
  cases ts <;> rfl

theorem close_left (wanted : Wanted) : (close ending wanted ts).left <:+ ts := by
  cases ts with
  | nil => exact List.nil_suffix
  | cons t ts =>
    rw [close]
    split
    · exact (past_left (Reading.done_suffix _ _)).trans (List.suffix_cons t ts)
    · simp

end

section
variable {V : Type} (alg : Algebra V) (ending : Ending)

theorem value_left {n : Nat} (name : Token) (ts : List Token) (h : ts.length < n) :
    (value alg name ts h).left <:+ ts := by
  unfold value
  split <;> exact List.suffix_refl ts

theorem apply_left (name : Token) (args : List V) (ts : List Token) :
    (apply alg ending name args ts).left <:+ ts := by
  refine Reading.andThen_left (close_left .closingCall) fun _ rest h => ?_
  split <;> exact List.suffix_refl rest

mutual

theorem sum_left (ts : List Token) : (sum alg ending ts).left <:+ ts := by
  rw [sum]
  exact Reading.andThen_widen_left (product_left ts) fun v rest h => sumTail_left v rest
termination_by (ts.length, 7)

theorem sumTail_left (left : V) (ts : List Token) : (sumTail alg ending left ts).left <:+ ts := by
  match ts with
  | [] =>
    rw [sumTail]
    exact List.nil_suffix
  | t :: ts =>
    rw [sumTail]
    split
    · exact (past_left (Reading.andThen_widen_left (product_left ts) fun right rest h =>
        sumTail_left _ rest)).trans (List.suffix_cons t ts)
    · exact List.suffix_refl _
termination_by (ts.length, 0)

theorem product_left (ts : List Token) : (product alg ending ts).left <:+ ts := by
  rw [product]
  exact Reading.andThen_widen_left (unary_left ts) fun v rest h => productTail_left v rest
termination_by (ts.length, 6)

theorem productTail_left (left : V) (ts : List Token) :
    (productTail alg ending left ts).left <:+ ts := by
  match ts with
  | [] =>
    rw [productTail]
    exact List.nil_suffix
  | t :: ts =>
    rw [productTail]
    split
    · refine (past_left (Reading.andThen_left (unary_left ts) fun right rest h => ?_)).trans
        (List.suffix_cons t ts)
      split
      · rw [Reading.widen_left]
        exact productTail_left _ rest
      · exact List.suffix_refl rest
    · exact List.suffix_refl _
termination_by (ts.length, 0)

theorem unary_left (ts : List Token) : (unary alg ending ts).left <:+ ts := by
  match ts with
  | [] =>
    rw [unary]
    exact List.nil_suffix
  | t :: ts =>
    rw [unary]
    split
    · exact (past_left (Reading.andThen_left (unary_left ts) fun v rest h =>
        Reading.done_suffix _ _)).trans (List.suffix_cons t ts)
    · exact power_left (t :: ts)
termination_by (ts.length, 5)

theorem power_left (ts : List Token) : (power alg ending ts).left <:+ ts := by
  rw [power]
  exact Reading.andThen_widen_left (primary_left ts) fun v rest h => powerTail_left v rest
termination_by (ts.length, 4)

theorem powerTail_left (base : V) (ts : List Token) :
    (powerTail alg ending base ts).left <:+ ts := by
  match ts with
  | [] =>
    rw [powerTail]
    exact List.nil_suffix
  | t :: ts =>
    rw [powerTail]
    split
    · exact (past_left (Reading.andThen_left (unary_left ts) fun v rest h =>
        Reading.done_suffix _ _)).trans (List.suffix_cons t ts)
    · exact List.suffix_refl _
termination_by (ts.length, 0)

theorem primary_left (ts : List Token) : (primary alg ending ts).left <:+ ts := by
  match ts with
  | [] =>
    rw [primary]
    exact List.nil_suffix
  | t :: ts =>
    rw [primary]
    split
    · exact (past_left (Reading.done_suffix _ _)).trans (List.suffix_cons t ts)
    · exact (past_left (named_left t ts)).trans (List.suffix_cons t ts)
    · exact (past_left (Reading.andThen_left (sum_left ts) fun v rest h =>
        Reading.andThen_left (close_left _) fun _ last h' =>
          Reading.done_suffix _ _)).trans (List.suffix_cons t ts)
    · simp
termination_by (ts.length, 3)

theorem named_left (name : Token) (ts : List Token) : (named alg ending name ts).left <:+ ts := by
  match ts with
  | [] =>
    rw [named]
    exact value_left alg name [] _
  | t :: ts =>
    rw [named]
    split
    · refine (past_left ?_).trans (List.suffix_cons t ts)
      rw [Reading.widen_left]
      exact arguments_left name ts
    · exact value_left alg name (t :: ts) _
termination_by (ts.length, 0)

theorem arguments_left (name : Token) (ts : List Token) :
    (arguments alg ending name ts).left <:+ ts := by
  match ts with
  | [] =>
    rw [arguments]
    exact List.nil_suffix
  | t :: ts =>
    rw [arguments]
    split
    · exact apply_left alg ending name [] (t :: ts)
    · exact Reading.andThen_widen_left (sum_left (t :: ts)) fun v rest h =>
        argumentsTail_left name [v] rest
termination_by (ts.length, 8)

theorem argumentsTail_left (name : Token) (args : List V) (ts : List Token) :
    (argumentsTail alg ending name args ts).left <:+ ts := by
  match ts with
  | [] =>
    rw [argumentsTail]
    exact apply_left alg ending name args []
  | t :: ts =>
    rw [argumentsTail]
    split
    · exact (past_left (Reading.andThen_widen_left (sum_left ts) fun v rest h =>
        argumentsTail_left name (args ++ [v]) rest)).trans (List.suffix_cons t ts)
    · exact apply_left alg ending name args (t :: ts)
termination_by (ts.length, 0)

end

end
end QuantumOps.Expression
