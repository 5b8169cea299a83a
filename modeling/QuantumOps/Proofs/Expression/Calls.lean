import Mathlib.Logic.Function.Iterate
import QuantumOps.Proofs.Expression.Machine

/-! What every step of the machine preserves. A call waits for another that is entered after more
requests, or after as many and by a procedure further down; and no procedure comes to the head of
its loop again before another request. -/
namespace QuantumOps.Expression

/-- Entered later, or without a request in between and by a procedure further down. -/
def Call.Within (inner outer : Call) : Prop :=
  outer.entered < inner.entered ∨
    outer.entered = inner.entered ∧ outer.procedure.rank < inner.procedure.rank

theorem Call.Within.trans {a b c : Call} (h : a.Within b) (h' : b.Within c) : a.Within c := by
  unfold Within at *
  omega

/-- A call of a procedure inside a call of the same procedure is entered after more requests. -/
theorem Call.Within.lt {inner outer : Call} (h : inner.Within outer)
    (hp : inner.procedure = outer.procedure) : outer.entered < inner.entered := by
  rcases h with h | ⟨-, h⟩
  · exact h
  · rw [hp] at h
    exact absurd h (Nat.lt_irrefl _)

/-- A call entered at one of the first `n` requests, which has come to the head of its loop at later
and later ones. -/
structure Call.Made (n : Nat) (call : Call) : Prop where
  entered : call.entered ≤ n
  turned : ∀ k ∈ call.turns, k ≤ n
  turns : call.turns.Pairwise (· > ·)

theorem Call.Made.mono {m n : Nat} {call : Call} (h : call.Made m) (hmn : m ≤ n) : call.Made n :=
  ⟨Nat.le_trans h.entered hmn, fun k hk => Nat.le_trans (h.turned k hk) hmn, h.turns⟩

section
variable {V : Type}

/-- The points at which a procedure has not come to a loop and may call another one at once. -/
def Point.opening : Point V → Bool
  | start | begun | arguments _ | sum | product | unary | power | primary => true
  | _ => false

/-- What a call may do after `n` requests. -/
def Action.Allowed (n : Nat) (c : Call) : Action V → Prop
  | goto p => p.procedure = c.procedure ∧ p ≠ .start ∧ (p.opening → c.turns = [])
  | head p => p.procedure = c.procedure ∧ p ≠ .start ∧ p.opening = false ∧ ∀ k ∈ c.turns, k < n
  | call p frame => frame.procedure = c.procedure ∧ p ≠ .start ∧ (∀ k ∈ c.turns, k < n) ∧
      (c.entered < n ∨ c.procedure.rank < p.procedure.rank)
  | give _ | fail _ => True

variable {alg : Algebra V} {n : Nat} {call : Call}

/-- A procedure that calls another one without a request is at its beginning, and calls one further
down. -/
theorem Action.allowed_now {p : Point V} {sight : Sight} {a : Action V}
    (h : p.move alg sight = .now a) (hp : call.procedure = p.procedure)
    (ho : p.opening → call.turns = []) : a.Allowed n call := by
  fun_cases Point.move alg p sight <;>
    grind [Point.move, Point.move.value, Allowed, Point.procedure, Frame.procedure, Point.opening,
      Procedure.rank]

/-- After a request a procedure may call any other one. -/
theorem Action.allowed_past {p : Point V} {sight : Sight} {a : Action V}
    (h : p.move alg sight = .past a) (hp : call.procedure = p.procedure)
    (ho : p.opening → call.turns = []) (hm : call.Made n) : a.Allowed (n + 1) call := by
  have hentered : call.entered < n + 1 := Nat.lt_succ_of_le hm.entered
  have hturned : ∀ k ∈ call.turns, k < n + 1 := fun k hk => Nat.lt_succ_of_le (hm.turned k hk)
  fun_cases Point.move alg p sight <;>
    grind [Point.move, Point.move.apply, Allowed, Point.procedure, Frame.procedure, Point.opening]

theorem Action.allowed_resume {frame : Frame V} {v : V} (hp : call.procedure = frame.procedure)
    (ht : ∀ k ∈ call.turns, k < n) : (frame.resume alg v).Allowed n call := by
  fun_cases Frame.resume alg frame v <;>
    grind [Allowed, Point.procedure, Frame.procedure, Point.opening]

/-- A token is passed only when one is in sight, except that the first has to be asked for. -/
theorem Point.exists_token {p : Point V} {sight : Sight} {a : Action V}
    (h : p.move alg sight = .past a) : p = .start ∨ ∃ t, sight = .token t := by
  cases sight with
  | token t => exact .inr ⟨t, rfl⟩
  | ending e =>
    cases p with
    | start => exact .inl rfl
    | _ => cases h

/-- The calls that wait have been made, each for its frame, and there has been a request since they
last came to the heads of their loops. -/
def Waiting (n : Nat) (waiting : List (Call × Frame V)) : Prop :=
  ∀ w ∈ waiting, w.1.Made n ∧ w.1.procedure = w.2.procedure ∧ ∀ k ∈ w.1.turns, k < n

theorem Waiting.mono {m n : Nat} {waiting : List (Call × Frame V)} (h : Waiting m waiting)
    (hmn : m ≤ n) : Waiting n waiting := by
  intro w hw
  obtain ⟨hmade, hprocedure, hturns⟩ := h w hw
  exact ⟨hmade.mono hmn, hprocedure, fun k hk => Nat.lt_of_lt_of_le (hturns k hk) hmn⟩

/-- What holds of the machine in every state. -/
structure Config.Sound (c : Config V) : Prop where
  requests : Requests c.source c.log
  waiting : Waiting c.log.length c.waiting
  nested : c.calls.Pairwise Call.Within
  running : ∀ call p, c.control = .running call p → call.Made c.log.length ∧
    call.procedure = p.procedure ∧ (p.opening → call.turns = []) ∧ (p = .start → c.log = [])

variable {c : Config V}

/-- Every call not yet ended has come to the head of its loop at later and later requests. -/
theorem Config.Sound.turns (h : c.Sound) : ∀ call ∈ c.calls, call.turns.Pairwise (· > ·) := by
  have hwaiting : ∀ call ∈ c.waiting.map Prod.fst, call.turns.Pairwise (· > ·) :=
    List.forall_mem_map.mpr fun w hw => (h.waiting w hw).1.turns
  rw [calls]
  split
  · exact List.forall_mem_cons.mpr ⟨(h.running _ _ ‹_›).1.turns, hwaiting⟩
  · exact hwaiting

/-- Whatever a call does that it may do, the machine stays sound. -/
theorem Config.sound_perform {a : Action V} (hr : Requests c.source c.log)
    (hw : Waiting c.log.length c.waiting)
    (hn : (call :: c.waiting.map Prod.fst).Pairwise Call.Within)
    (hm : call.Made c.log.length) (ha : a.Allowed c.log.length call) :
    (c.perform call a).Sound := by
  obtain ⟨hbelow, hrest⟩ := List.pairwise_cons.mp hn
  cases a with
  | goto p =>
    obtain ⟨hp, hstart, hopening⟩ := ha
    refine ⟨hr, hw, hn, ?_⟩
    rintro _ _ ⟨⟩
    exact ⟨hm, hp.symm, hopening, fun h => absurd h hstart⟩
  | head p =>
    obtain ⟨hp, hstart, hopening, hturns⟩ := ha
    refine ⟨hr, hw, List.pairwise_cons.mpr ⟨hbelow, hrest⟩, ?_⟩
    rintro _ _ ⟨⟩
    refine ⟨⟨hm.entered, List.forall_mem_cons.mpr ⟨Nat.le_refl _, hm.turned⟩,
      List.pairwise_cons.mpr ⟨hturns, hm.turns⟩⟩, hp.symm, ?_, fun h => absurd h hstart⟩
    rw [hopening]
    exact nofun
  | call p frame =>
    obtain ⟨hframe, hstart, hturns, hdeeper⟩ := ha
    -- the new call is inside the one that makes it, and so inside all that wait
    have hinner : Call.Within ⟨p.procedure, c.log.length, []⟩ call := by
      rcases hdeeper with hlt | hrank
      · exact .inl hlt
      · exact (Nat.lt_or_eq_of_le hm.entered).imp id (⟨·, hrank⟩)
    refine ⟨hr, List.forall_mem_cons.mpr ⟨⟨hm, hframe.symm, hturns⟩, hw⟩, ?_, ?_⟩
    · refine List.pairwise_cons.mpr ⟨List.forall_mem_cons.mpr ⟨hinner, ?_⟩, hn⟩
      exact fun outer houter => hinner.trans (hbelow outer houter)
    · rintro _ _ ⟨⟩
      exact ⟨⟨Nat.le_refl _, nofun, .nil⟩, rfl, fun _ => rfl, fun h => absurd h hstart⟩
  | give v | fail e => exact ⟨hr, hw, hrest, fun _ _ h => nomatch h⟩

theorem Config.sound_start (source : List Char) : (start source : Config V).Sound := by
  refine ⟨.none, fun _ h => (List.not_mem_nil h).elim, List.pairwise_singleton _ _, ?_⟩
  rintro _ _ ⟨⟩
  exact ⟨⟨Nat.le_refl _, nofun, .nil⟩, rfl, fun _ => rfl, fun _ => rfl⟩

/-- A request is made at the beginning or when a token is in sight. -/
theorem Config.requests_ask (h : Requests c.source c.log)
    (ht : c.log = [] ∨ ∃ t, c.sight = .token t) : Requests c.source c.ask.log := by
  rw [ask, place]
  rw [sight] at ht
  cases hlog : c.log with
  | nil => exact .first
  | cons r log =>
    rw [hlog] at h ht
    rcases ht with ht | ⟨t, ht⟩
    · cases ht
    · exact .again h ht

/-- Every step keeps the machine sound. -/
theorem Config.Sound.step (h : c.Sound) : (c.step alg).Sound := by
  rw [Config.step]
  split
  case h_1 call p hcontrol =>
    obtain ⟨hmade, hprocedure, hopening, hstart⟩ := h.running call p hcontrol
    have hnested : (call :: c.waiting.map Prod.fst).Pairwise Call.Within := by
      have hcalls := h.nested
      rwa [calls, hcontrol] at hcalls
    split
    case h_1 a hmove =>
      exact sound_perform h.requests h.waiting hnested hmade
        (Action.allowed_now hmove hprocedure hopening)
    case h_2 a hmove =>
      have hlen : c.ask.log.length = c.log.length + 1 := rfl
      have hrequests : Requests c.ask.source c.ask.log :=
        requests_ask h.requests ((Point.exists_token hmove).imp_left hstart)
      have hwaiting : Waiting c.ask.log.length c.ask.waiting := h.waiting.mono (Nat.le_succ _)
      split
      · exact ⟨hrequests, hwaiting, (List.pairwise_cons.mp hnested).2, fun _ _ h => nomatch h⟩
      · exact sound_perform hrequests hwaiting hnested (hmade.mono (Nat.le_succ _))
          (Action.allowed_past hmove hprocedure hopening hmade)
  case h_2 v hcontrol =>
    have hnested : (c.waiting.map Prod.fst).Pairwise Call.Within := by
      have hcalls := h.nested
      rwa [calls, hcontrol] at hcalls
    split
    · rename_i hwaiting
      exact ⟨h.requests, h.waiting, hnested, fun _ _ h => nomatch h⟩
    · rename_i call frame rest hwaiting
      rw [hwaiting] at hnested
      obtain ⟨⟨hmade, hprocedure, hturns⟩, hrest⟩ :=
        List.forall_mem_cons.mp (hwaiting ▸ h.waiting)
      exact sound_perform h.requests hrest hnested hmade
        (Action.allowed_resume hprocedure hturns)
  case h_3 => exact h

@[simp] theorem Config.perform_source (a : Action V) : (c.perform call a).source = c.source := by
  cases a <;> rfl

@[simp] theorem Config.step_source : (c.step alg).source = c.source := by
  rw [step]
  split
  · split
    · exact perform_source _
    · split
      · rfl
      · exact perform_source _
  · split
    · rfl
    · exact perform_source _
  · rfl

theorem Config.run_source (source : List Char) (k : Nat) :
    ((step alg)^[k] (start source)).source = source := by
  induction k with
  | zero => rfl
  | succ k ih => rw [Function.iterate_succ_apply', step_source, ih]

/-- The machine is sound however long it has run. -/
theorem Config.sound_run (source : List Char) (k : Nat) :
    ((step alg)^[k] (start source)).Sound := by
  induction k with
  | zero => exact sound_start source
  | succ k ih =>
    rw [Function.iterate_succ_apply']
    exact ih.step

end
end QuantumOps.Expression
