import CommandLink.Proofs.Dispatch.Account

namespace CommandLink

/-- The steps made so far, the input that is left and the application's state. -/
structure Outlook (C : Type) where
  told : List (Step C)
  rest : List UInt8
  context : C

namespace Dispatch

variable {C : Type} (settings : Settings) (table : Table C) (n : Nat)

/-- The step that the head of an input leads to, leaving aside whether there is
room for the reply. -/
def foretold (taken : Taken C) (ctx : C) : Step C :=
  ⟨verdict settings taken, call? settings n ctx taken⟩

def absorb (o : Outlook C) : Outlook C where
  told := o.told ++ [foretold settings n (next settings table o.rest).1 o.context]
  rest := (next settings table o.rest).2
  context := after o.context (call? settings n o.context (next settings table o.rest).1)

/-- What comes of an input if nothing more arrives. -/
def settle (o : Outlook C) : Outlook C :=
  if _h : (next settings table o.rest).1.isComplete = true then settle (absorb settings table n o)
  else o
termination_by o.rest.length
decreasing_by exact next_shorter _h

def feed (o : Outlook C) (bs : List UInt8) : Outlook C :=
  settle settings table n { o with rest := o.rest ++ bs }

variable {settings table n}

theorem settle_complete {o : Outlook C} (h : (next settings table o.rest).1.isComplete = true) :
    settle settings table n o = settle settings table n (absorb settings table n o) := by
  rw [settle, dif_pos h]

theorem settle_incomplete {o : Outlook C} (h : (next settings table o.rest).1.isComplete = false) :
    settle settings table n o = o := by
  rw [settle, dif_neg (by simp [h])]

theorem feed_absorb {o : Outlook C} (h : (next settings table o.rest).1.isComplete = true)
    (bs : List UInt8) :
    feed settings table n (absorb settings table n o) bs = feed settings table n o bs := by
  have hn := next_append h bs
  have hc : (next settings table (o.rest ++ bs)).1.isComplete = true := by rw [hn]; exact h
  have hs : settle settings table n { o with rest := o.rest ++ bs } = _ := settle_complete hc
  rw [feed, feed, hs]
  simp only [absorb, hn]

theorem feed_settle (o : Outlook C) (bs : List UInt8) :
    feed settings table n (settle settings table n o) bs = feed settings table n o bs := by
  -- Each complete item makes the input shorter, and what arrives waits behind it.
  induction hl : o.rest.length using Nat.strongRecOn generalizing o with
  | ind l ih =>
    subst hl
    cases h : (next settings table o.rest).1.isComplete with
    | false => rw [settle_incomplete h]
    | true =>
      rw [settle_complete h, ih _ (next_shorter h) (absorb settings table n o) rfl, feed_absorb h]

/-- Feeding twice is feeding the concatenation: no decision is made too early. -/
theorem feed_feed (o : Outlook C) (bs cs : List UInt8) :
    feed settings table n (feed settings table n o bs) cs =
      feed settings table n o (bs ++ cs) := by
  rw [feed.eq_def settings table n o bs, feed_settle, feed, feed, List.append_assoc]

theorem feed_nil (o : Outlook C) : feed settings table n o [] = settle settings table n o := by
  rw [feed, List.append_nil]

theorem settle_settle (o : Outlook C) :
    settle settings table n (settle settings table n o) = settle settings table n o := by
  rw [← feed_nil, feed_settle, feed_nil]

end Dispatch

end CommandLink
