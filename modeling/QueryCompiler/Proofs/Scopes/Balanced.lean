/-
Which histories are well nested.

`wellNested` reads a history once, from the first event to the last, and keeps a list of
the frames that are open.  `Balanced` is a grammar: a balanced history is empty, or it
opens a frame, goes on with a balanced history, closes the frame and goes on with another
one.  Both go by the numbers of the frames alone, and a number may be used again.

That the reader accepts nothing else needs a word about the middle of a history, where
some frames are still open.  `Closes` is that word: the closings of these frames are all
to come, the innermost first, and what stands between them is balanced.
-/
import QueryCompiler.Scopes.History

namespace QueryCompiler.ScopeEvent

/-- Every opening has its closing, with something balanced in between. -/
inductive Balanced : List ScopeEvent → Prop
  | empty : Balanced []
  | pair {serial height : Nat} {scope scope' : Scope} {inside rest : List ScopeEvent}
      (hinside : Balanced inside) (hrest : Balanced rest) :
      Balanced (entered serial scope height :: (inside ++ left serial scope' :: rest))

/-- The events close the open frames with the given numbers, innermost first, and whatever they
open themselves. -/
inductive Closes : List Nat → List ScopeEvent → Prop
  | nothing {events : List ScopeEvent} (h : Balanced events) : Closes [] events
  | next {serial : Nat} {scope : Scope} {outer : List Nat} {inside rest : List ScopeEvent}
      (hinside : Balanced inside) (hrest : Closes outer rest) :
      Closes (serial :: outer) (inside ++ left serial scope :: rest)

variable {opened : List Nat} {events rest : List ScopeEvent}

/-- A balanced stretch makes no difference to what has to be closed after it. -/
theorem Balanced.closesAll_append (h : Balanced events) (opened : List Nat)
    (rest : List ScopeEvent) : closesAll opened (events ++ rest) = closesAll opened rest := by
  induction h generalizing opened rest with
  | empty => rfl
  | pair _ _ ihinside ihrest =>
      simp only [List.cons_append, List.append_assoc, closesAll, ihinside, ihrest,
        beq_self_eq_true, Bool.true_and]

/-- A balanced stretch can stand before any closing. -/
theorem Closes.after_pair {serial height : Nat} {scope scope' : Scope} {inside : List ScopeEvent}
    (hrest : Closes opened rest) (hinside : Balanced inside) :
    Closes opened (entered serial scope height :: (inside ++ left serial scope' :: rest)) := by
  cases hrest with
  | nothing hbalanced => exact .nothing (.pair hinside hbalanced)
  | @next top topScope outer before after hbefore hafter =>
      have hstretch : Balanced (entered serial scope height ::
          (inside ++ left serial scope' :: before)) := .pair hinside hbefore
      have hnext : Closes (top :: outer) ((entered serial scope height ::
          (inside ++ left serial scope' :: before)) ++ left top topScope :: after) :=
        .next hstretch hafter
      simpa using hnext

theorem closesAll_of_closes (h : Closes opened events) : closesAll opened events = true := by
  induction h with
  | @nothing events hbalanced =>
      have hskip := hbalanced.closesAll_append [] []
      rw [List.append_nil] at hskip
      rw [hskip]
      rfl
  | next hinside _ ih =>
      rw [hinside.closesAll_append]
      simp only [closesAll, beq_self_eq_true, Bool.true_and, ih]

/-- The induction is on the events that are still to be read.  An opening adds a frame, whose closing
is then the first one to come; a closing has to be that of the innermost frame. -/
theorem closes_of_closesAll (h : closesAll opened events = true) : Closes opened events := by
  induction events generalizing opened with
  | nil =>
      obtain rfl : opened = [] := List.isEmpty_iff.mp h
      exact .nothing .empty
  | cons event rest ih =>
      cases event with
      | entered serial scope height =>
          have hrest : Closes (serial :: opened) rest := ih h
          cases hrest with
          | next hinside hafter => exact hafter.after_pair hinside
      | left serial scope =>
          cases opened with
          | nil => simp [closesAll] at h
          | cons top outer =>
              simp only [closesAll, Bool.and_eq_true, beq_iff_eq] at h
              obtain ⟨rfl, hrest⟩ := h
              exact .next .empty (ih hrest)

theorem Balanced.wellNested (h : Balanced events) : wellNested events = true :=
  closesAll_of_closes (.nothing h)

/-- **The well-nested histories are the balanced ones.** -/
theorem wellNested_iff_balanced (events : List ScopeEvent) :
    wellNested events = true ↔ Balanced events := by
  constructor
  · intro h
    cases closes_of_closesAll h with
    | nothing hbalanced => exact hbalanced
  · exact Balanced.wellNested

/-- A number is used for a frame and for the frame inside it. -/
example : wellNested [entered 7 .loop 1, entered 7 .block 9, left 7 .handler, left 7 .loop] = true ∧
    wellNested [entered 7 .loop 1, entered 8 .block 2, left 7 .loop, left 8 .block] = false := by
  decide

end QueryCompiler.ScopeEvent
