import Runbook.Keyed

/-!
# `Host.Mailbox` — events and those who wait for them

An event is sent to a token. When somebody waits on the token, the one who has waited longest takes
it; otherwise it is kept, in order, for those who come later. A wait has come to its end when an event
was handed over or time ran out; but the waiter stays until it goes on itself, and meanwhile others
send and wait. Once an event was handed over, the time limit of the wait has no meaning any more.

## Contents
- **Waiters.** `WaitState`, `Waiter`, and `Waiter.handFirst`, with who takes an event.
- **The type.** `Mailbox`, the kept events and the waiters of each token.
- **Waiting.** `take?`, `enlist`, `expire`, `leave?`, `isWaiting`.
- **Sending.** `send`, which names the waiter that takes the event.
-/

namespace Runbook

/-! ## Waiters -/

/-- How a wait stands. -/
inductive WaitState (α : Type) where
  | unresolved
  | handed (event : α)
  | expired

/-- One who waits, known by a number. -/
structure Waiter (α : Type) where
  number : Nat
  state : WaitState α := .unresolved

namespace Waiter

variable {α : Type}

/-- Whether the wait goes on. -/
def isUnresolved (w : Waiter α) : Bool :=
  match w.state with
  | .unresolved => true
  | _ => false

/-- A waiter for whom time has run out, unless the wait has come to its end already. -/
def expire (w : Waiter α) : Waiter α := if w.isUnresolved then { w with state := .expired } else w

/-- Hands an event to the first waiter whose wait goes on; its number and the waiters afterwards. -/
def handFirst (event : α) : List (Waiter α) → Option (Nat × List (Waiter α))
  | [] => none
  | w :: rest =>
    if w.isUnresolved then some (w.number, { w with state := .handed event } :: rest)
    else (handFirst event rest).map fun (n, rest) => (n, w :: rest)

/-- The event that was handed over. -/
def received? (w : Waiter α) : Option α :=
  match w.state with
  | .handed event => some event
  | _ => none

theorem received?_of_isUnresolved {w : Waiter α} (h : w.isUnresolved = true) : w.received? = none := by
  obtain ⟨n, state⟩ := w
  cases state with
  | unresolved => rfl
  | _ => exact absurd h (by simp [isUnresolved])

@[simp] theorem number_expire (w : Waiter α) : w.expire.number = w.number := by
  unfold expire
  split <;> rfl

@[simp] theorem received?_expire (w : Waiter α) : w.expire.received? = w.received? := by
  unfold expire
  split
  · next h => rw [received?_of_isUnresolved h]; rfl
  · rfl

theorem isUnresolved_of_expire {w : Waiter α} (h : w.expire.isUnresolved = true) :
    w.isUnresolved = true := by
  unfold expire at h
  split at h
  · assumption
  · exact h

/-- Nobody takes an event when no wait goes on. -/
theorem handFirst_eq_none {event : α} {ws : List (Waiter α)} :
    handFirst event ws = none ↔ ws.any isUnresolved = false := by
  induction ws with
  | nil => simp [handFirst]
  | cons w rest ih =>
    by_cases hw : w.isUnresolved = true
    · simp [handFirst, hw]
    · simp [handFirst, hw, ih]

/-- The waiter that takes an event is the first whose wait goes on. -/
theorem handFirst_eq_some {event : α} {ws ws' : List (Waiter α)} {n : Nat}
    (h : handFirst event ws = some (n, ws')) :
    ∃ before w after, ws = before ++ w :: after ∧ (∀ v ∈ before, v.isUnresolved = false)
      ∧ w.isUnresolved = true ∧ w.number = n
      ∧ ws' = before ++ { w with state := .handed event } :: after := by
  induction ws generalizing ws' with
  | nil => exact absurd h (by simp [handFirst])
  | cons v rest ih =>
    by_cases hv : v.isUnresolved = true
    · simp only [handFirst, hv, if_true, Option.some.injEq, Prod.mk.injEq] at h
      obtain ⟨hn, rfl⟩ := h
      exact ⟨[], v, rest, rfl, by simp, hv, hn, rfl⟩
    · simp only [handFirst, hv, Bool.false_eq_true, if_false, Option.map_eq_some_iff] at h
      obtain ⟨⟨n', rest'⟩, hrest, heq⟩ := h
      obtain ⟨rfl, rfl⟩ := Prod.mk.inj heq
      obtain ⟨before, w, after, rfl, hbefore, hw, hn, rfl⟩ := ih hrest
      refine ⟨v :: before, w, after, rfl, ?_, hw, hn, rfl⟩
      exact List.forall_mem_cons.mpr ⟨by simpa using hv, hbefore⟩

end Waiter

/-! ## The type -/

/-- The events kept for each token, and who waits on it, longest first. -/
structure Mailbox (α : Type) where
  kept : Keyed (List α) := []
  waiters : Keyed (List (Waiter α)) := []

namespace Mailbox

variable {α : Type}

/-- The events kept for a token. -/
def keptFor (m : Mailbox α) (token : String) : List α := (m.kept.get? token).getD []

/-- The waiters on a token, also those whose wait has come to its end. -/
def waitersOn (m : Mailbox α) (token : String) : List (Waiter α) :=
  (m.waiters.get? token).getD []

/-- Whether anybody waits on a token. -/
def isWaiting (m : Mailbox α) (token : String) : Bool :=
  (m.waitersOn token).any Waiter.isUnresolved

/-- Replaces the events kept for a token. -/
def withKept (m : Mailbox α) (token : String) (events : List α) : Mailbox α :=
  { m with kept := m.kept.put token events }

/-- Replaces the waiters on a token. -/
def withWaiters (m : Mailbox α) (token : String) (waiters : List (Waiter α)) : Mailbox α :=
  { m with waiters := m.waiters.put token waiters }

/-! ## Waiting -/

/-- Takes the oldest event kept for a token. -/
def take? (m : Mailbox α) (token : String) : Option (α × Mailbox α) :=
  match m.keptFor token with
  | [] => none
  | event :: rest => some (event, m.withKept token rest)

/-- Adds a waiter to a token. -/
def enlist (m : Mailbox α) (token : String) (waiter : Nat) : Mailbox α :=
  m.withWaiters token (m.waitersOn token ++ [{ number := waiter }])

/-- Lets time run out for a waiter. -/
def expire (m : Mailbox α) (token : String) (waiter : Nat) : Mailbox α :=
  m.withWaiters token
    ((m.waitersOn token).map fun w => if w.number = waiter then w.expire else w)

/-- Removes a waiter from a token. -/
def withdraw (m : Mailbox α) (token : String) (waiter : Nat) : Mailbox α :=
  m.withWaiters token ((m.waitersOn token).filter fun w => w.number ≠ waiter)

/-- A waiter goes on, with the event that was handed over; nobody does before the end of the wait. -/
def leave? (m : Mailbox α) (token : String) (waiter : Nat) : Option (Option α × Mailbox α) :=
  match (m.waitersOn token).find? fun w => w.number = waiter with
  | none | some ⟨_, .unresolved⟩ => none
  | some ⟨_, .handed event⟩ => some (some event, m.withdraw token waiter)
  | some ⟨_, .expired⟩ => some (none, m.withdraw token waiter)

/-! ## Sending -/

/-- Sends an event: the waiter that takes it, or the event is kept. -/
def send (m : Mailbox α) (token : String) (event : α) : Option Nat × Mailbox α :=
  match Waiter.handFirst event (m.waitersOn token) with
  | some (waiter, waiters) => (some waiter, m.withWaiters token waiters)
  | none => (none, m.withKept token (m.keptFor token ++ [event]))

/-! ## Views -/

@[simp] theorem keptFor_withKept (m : Mailbox α) (token : String) (events : List α) :
    (m.withKept token events).keptFor token = events := by
  simp [keptFor, withKept]

theorem keptFor_withKept_of_ne (m : Mailbox α) {token other : String} (h : other ≠ token)
    (events : List α) : (m.withKept token events).keptFor other = m.keptFor other := by
  simp [keptFor, withKept, Keyed.get?_put_of_ne _ _ h]

@[simp] theorem keptFor_withWaiters (m : Mailbox α) (token other : String)
    (waiters : List (Waiter α)) : (m.withWaiters token waiters).keptFor other = m.keptFor other := rfl

@[simp] theorem waitersOn_withWaiters (m : Mailbox α) (token : String) (waiters : List (Waiter α)) :
    (m.withWaiters token waiters).waitersOn token = waiters := by
  simp [waitersOn, withWaiters]

theorem isWaiting_eq_false {m : Mailbox α} {token : String} :
    m.isWaiting token = false ↔ ∀ w ∈ m.waitersOn token, w.isUnresolved = false := by
  simp [isWaiting]

theorem waitersOn_withWaiters_of_ne (m : Mailbox α) {token other : String} (h : other ≠ token)
    (waiters : List (Waiter α)) :
    (m.withWaiters token waiters).waitersOn other = m.waitersOn other := by
  simp [waitersOn, withWaiters, Keyed.get?_put_of_ne _ _ h]

/-- Who goes on has come to the end of a wait, and is given what was handed over. -/
theorem leave?_eq_some {m m' : Mailbox α} {token : String} {waiter : Nat} {event : Option α}
    (h : m.leave? token waiter = some (event, m')) :
    ∃ w, (m.waitersOn token).find? (fun w => w.number = waiter) = some w
      ∧ event = w.received? ∧ m' = m.withdraw token waiter := by
  unfold leave? at h
  split at h
  · exact absurd h (by simp)
  · exact absurd h (by simp)
  · next hfound =>
    obtain ⟨rfl, rfl⟩ := Prod.mk.inj (Option.some.inj h)
    exact ⟨_, hfound, rfl, rfl⟩
  · next hfound =>
    obtain ⟨rfl, rfl⟩ := Prod.mk.inj (Option.some.inj h)
    exact ⟨_, hfound, rfl, rfl⟩

/-- A waiter that was handed an event goes on with it. -/
theorem leave?_of_handed {m : Mailbox α} {token : String} {waiter : Nat} {w : Waiter α} {event : α}
    (h : (m.waitersOn token).find? (fun w => w.number = waiter) = some w)
    (hw : w.received? = some event) :
    m.leave? token waiter = some (some event, m.withdraw token waiter) := by
  obtain ⟨n, state⟩ := w
  cases state with
  | handed event' =>
    obtain rfl : event' = event := Option.some.inj hw
    rw [leave?, h]
  | _ => exact absurd hw (by simp [Waiter.received?])

@[simp] theorem waitersOn_withKept (m : Mailbox α) (token other : String) (events : List α) :
    (m.withKept token events).waitersOn other = m.waitersOn other := rfl

end Mailbox

end Runbook
