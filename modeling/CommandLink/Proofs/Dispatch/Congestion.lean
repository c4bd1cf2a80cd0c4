import CommandLink.Proofs.Dispatch.Account

namespace CommandLink

/-- The two queues and the application of a device, and the steps made so far. -/
structure Endpoint (C : Type) (n : Nat) where
  rx : Ring n
  tx : Ring n
  context : C
  steps : List (Step C) := []

namespace Endpoint

variable {C : Type} {n : Nat}

def process (settings : Settings) (table : Table C) (e : Endpoint C n) : Endpoint C n :=
  let (outcome, rx, tx, context) := Dispatch.step settings table e.rx e.tx e.context
  let call? := Dispatch.call? settings n e.context (Dispatch.takeFrame settings table e.rx).1
  { rx, tx, context, steps := e.steps ++ [⟨outcome, call?⟩] }

/-- What happens to the queues between two steps: octets arrive in the input, and
whoever drains the output does with it what it likes. -/
structure Traffic (n : Nat) where
  arrive : Nat → Ring n → Ring n
  drain : Nat → Ring n → Ring n

def Traffic.pass (traffic : Traffic n) (k : Nat) (e : Endpoint C n) : Endpoint C n :=
  { e with rx := traffic.arrive k e.rx, tx := traffic.drain k e.tx }

/-- The first `k` steps, with the traffic before each. -/
def run (settings : Settings) (table : Table C) (traffic : Traffic n) (e : Endpoint C n) :
    Nat → Endpoint C n
  | 0 => e
  | k + 1 => (traffic.pass k (e.run settings table traffic k)).process settings table

/-- All but the output and the fate of replies is the same. -/
structure Alike (a b : Endpoint C n) : Prop where
  input : a.rx = b.rx
  context : a.context = b.context
  steps : a.steps.map Step.bare = b.steps.map Step.bare

theorem Alike.calls {a b : Endpoint C n} (h : Alike a b) :
    a.steps.filterMap Step.call? = b.steps.filterMap Step.call? := by
  have hbare (steps : List (Step C)) :
      steps.filterMap Step.call? = (steps.map Step.bare).filterMap Step.call? := by
    rw [List.filterMap_map]
    rfl
  rw [hbare, hbare b.steps, h.steps]

/-- Error replies are no matter for what comes of the items. -/
theorem verdict_replies (settings : Settings) (replies : Bool) (taken : Taken C) :
    Dispatch.verdict { settings with errorReplies := replies } taken =
      Dispatch.verdict settings taken := by
  cases taken <;> rfl

theorem call?_replies (settings : Settings) (replies : Bool) (ctx : C) (taken : Taken C) :
    Dispatch.call? { settings with errorReplies := replies } n ctx taken =
      Dispatch.call? settings n ctx taken := by
  cases taken <;> rfl

/-- The part of a step that does not depend on the output. -/
theorem process_eq (settings : Settings) (replies : Bool) (table : Table C) (e : Endpoint C n) :
    let e' := e.process { settings with errorReplies := replies } table
    let taken := (Dispatch.takeFrame settings table e.rx).1
    let call? := Dispatch.call? settings n e.context taken
    e'.rx = (Dispatch.takeFrame settings table e.rx).2 ∧
      e'.context = Dispatch.after e.context call? ∧
      e'.steps.map Step.bare =
        e.steps.map Step.bare ++ [⟨Dispatch.verdict settings taken, call?⟩] := by
  intro e' taken call?
  have hcontext := Dispatch.answer_context { settings with errorReplies := replies } taken e.tx
    e.context
  have hbare := Dispatch.answer_bare { settings with errorReplies := replies } taken e.tx e.context
  rw [call?_replies] at hcontext
  rw [verdict_replies] at hbare
  have hstep : Step.bare ⟨_, Dispatch.call? { settings with errorReplies := replies } n e.context
      taken⟩ = ⟨Dispatch.verdict settings taken, call?⟩ :=
    congrArg₂ Step.mk hbare (call?_replies settings replies e.context taken)
  refine ⟨rfl, hcontext, ?_⟩
  rw [← hstep]
  exact List.map_append

theorem alike_process {a b : Endpoint C n} (h : Alike a b) (settings : Settings)
    (replies replies' : Bool) (table : Table C) :
    Alike (a.process { settings with errorReplies := replies } table)
      (b.process { settings with errorReplies := replies' } table) := by
  obtain ⟨hrx, hcontext, hsteps⟩ := process_eq settings replies table a
  obtain ⟨hrx', hcontext', hsteps'⟩ := process_eq settings replies' table b
  rw [h.input, h.context] at hcontext hsteps
  refine ⟨?_, hcontext.trans hcontext'.symm, ?_⟩
  · rw [hrx, hrx', h.input]
  · rw [hsteps, hsteps', h.steps]

/-- Whatever stands in the output or leaves it, and whether errors are answered, the
same commands are executed on the same requests in the same order. Handlers are
any functions, so that this holds of those that keep a record of their calls. -/
theorem same_commands (settings : Settings) (replies replies' : Bool) (table : Table C)
    (arrive drain drain' : Nat → Ring n → Ring n) (rx tx tx' : Ring n) (ctx : C) (k : Nat) :
    let a := run { settings with errorReplies := replies } table ⟨arrive, drain⟩
      ⟨rx, tx, ctx, []⟩ k
    let b := run { settings with errorReplies := replies' } table ⟨arrive, drain'⟩
      ⟨rx, tx', ctx, []⟩ k
    Alike a b ∧ a.steps.filterMap Step.call? = b.steps.filterMap Step.call? := by
  intro a b
  have halike : Alike a b := by
    subst a b
    induction k with
    | zero => exact ⟨rfl, rfl, rfl⟩
    | succ k ih =>
      have hpass : Alike (Traffic.pass ⟨arrive, drain⟩ k _) (Traffic.pass ⟨arrive, drain'⟩ k _) :=
        ⟨congrArg (arrive k) ih.input, ih.context, ih.steps⟩
      exact alike_process hpass settings replies replies' table
  exact ⟨halike, halike.calls⟩

end Endpoint

end CommandLink
