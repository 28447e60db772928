import Mathlib.Data.List.Nodup
import Mathlib.Data.List.Perm.Basic
import Runbook.Host.Mailbox

/-!
# `Proofs.Deliveries` — every event is delivered once, in order

Waits begin, run out of time and go on in any order, while events are sent. Whatever happens, the events
that waiters were given on a token, and after them those that are kept, are the events that were sent on
it; nobody is given two of them; and a wait returns what its waiter was given: `events_delivered`.

What is known of one token is an account. Every act changes the account of its own token in one of a few
ways, listed in `TokenAccount.Step`, and no other; so the invariant `TokenAccount.Balanced` is kept by each way.

## Contents
- **Acts.** `Act`, `Effect`, and `EventHost` with `act` and `run`.
- **What is seen.** `sentOn`, `deliveredOn`, `begunOn`, `endedOn`, read off a log of acts.
- **Accounts.** `TokenAccount`, `TokenAccount.Step`, `TokenAccount.Balanced`, and that a step keeps the balance.
- **Runs.** `EventHost.Sound`, by induction on the acts, and `events_delivered`.
-/

namespace Runbook

variable {α : Type}

/-! ## Acts -/

/-- What is done with a mailbox: a wait begins or runs out of time, an event is sent, and the task of a
    waiter goes on. -/
inductive Act (α : Type) where
  | wait (token : String)
  | send (token : String) (event : α)
  | expire (token : String) (waiter : Nat)
  | resume (token : String) (waiter : Nat)

/-- The token that an act is about. -/
def Act.token : Act α → String
  | .wait token | .send token _ | .expire token _ | .resume token _ => token

/-- What an act has brought about. -/
inductive Effect (α : Type) where
  /-- A wait was given a kept event and has ended. -/
  | received (waiter : Nat) (event : α)
  /-- A wait goes on. -/
  | began (waiter : Nat)
  /-- An event was sent, and perhaps somebody took it. -/
  | sent (taker : Option Nat)
  /-- A wait has ended, with an event unless time ran out. -/
  | ended (event : Option α)
  | nothing

/-- A mailbox, and how many waits there have been. -/
structure EventHost (α : Type) where
  mailbox : Mailbox α := {}
  numbered : Nat := 0

namespace EventHost

/-- Carries out an act. -/
def act (h : EventHost α) : Act α → Effect α × EventHost α
  | .wait token =>
    match h.mailbox.take? token with
    | some (event, mailbox) => (.received h.numbered event, ⟨mailbox, h.numbered + 1⟩)
    | none => (.began h.numbered, ⟨h.mailbox.enlist token h.numbered, h.numbered + 1⟩)
  | .send token event =>
    let (taker, mailbox) := h.mailbox.send token event
    (.sent taker, { h with mailbox })
  | .expire token waiter => (.nothing, { h with mailbox := h.mailbox.expire token waiter })
  | .resume token waiter =>
    match h.mailbox.leave? token waiter with
    | some (event, mailbox) => (.ended event, { h with mailbox })
    | none => (.nothing, h)

/-- Carries out acts in order, and notes what each has brought about. -/
def run : EventHost α → List (Act α) → List (Act α × Effect α) × EventHost α
  | h, [] => ([], h)
  | h, a :: rest =>
    let (effect, h) := h.act a
    let (log, h) := h.run rest
    ((a, effect) :: log, h)

end EventHost

/-! ## What is seen -/

section

variable (token : String)

/-- The event that an act sends on a token. -/
def sentBy : Act α × Effect α → Option α
  | (.send t event, _) => if t = token then some event else none
  | _ => none

/-- The event that an act hands to a waiter on a token. -/
def deliveredBy : Act α × Effect α → Option (Nat × α)
  | (.wait t, .received waiter event) => if t = token then some (waiter, event) else none
  | (.send t event, .sent (some waiter)) => if t = token then some (waiter, event) else none
  | _ => none

/-- The wait on a token that an act begins. -/
def begunBy : Act α × Effect α → Option Nat
  | (.wait t, .received waiter _) => if t = token then some waiter else none
  | (.wait t, .began waiter) => if t = token then some waiter else none
  | _ => none

/-- The wait on a token that an act ends, with the event that it returns. -/
def endedBy : Act α × Effect α → Option (Nat × Option α)
  | (.wait t, .received waiter event) => if t = token then some (waiter, some event) else none
  | (.resume t waiter, .ended event) => if t = token then some (waiter, event) else none
  | _ => none

variable (log : List (Act α × Effect α))

/-- The events that were sent on a token. -/
def sentOn : List α := log.filterMap (sentBy token)

/-- The events that waiters on a token were given, in the order in which they were. -/
def deliveredOn : List (Nat × α) := log.filterMap (deliveredBy token)

/-- The waits that began on a token. -/
def begunOn : List Nat := log.filterMap (begunBy token)

/-- The waits on a token that have ended, with the event that each returned. -/
def endedOn : List (Nat × Option α) := log.filterMap (endedBy token)

end

/-! ## Accounts -/

/-- What is known of one token. -/
structure TokenAccount (α : Type) where
  sent : List α
  delivered : List (Nat × α)
  begun : List Nat
  ended : List (Nat × Option α)
  kept : List α
  waiters : List (Waiter α)

namespace TokenAccount

/-- How every wait stands, whether it has ended or not: the event that its waiter was given, if any. -/
def fates (a : TokenAccount α) : List (Nat × Option α) :=
  a.ended ++ a.waiters.map fun w => (w.number, w.received?)

/-- The waits that were given an event, according to how they stand. -/
def given (fates : List (Nat × Option α)) : List (Nat × α) :=
  fates.filterMap fun fate => fate.2.map fun event => (fate.1, event)

/-- **What an act can do** to the account of its token, when the next wait has a given number. -/
inductive Step (numbered : Nat) (a : TokenAccount α) : TokenAccount α → Prop where
  | received {event : α} {rest : List α} (hkept : a.kept = event :: rest) :
      Step numbered a
        { a with
          delivered := a.delivered ++ [(numbered, event)], begun := a.begun ++ [numbered]
          ended := a.ended ++ [(numbered, some event)], kept := rest }
  | began (hkept : a.kept = []) :
      Step numbered a
        { a with begun := a.begun ++ [numbered], waiters := a.waiters ++ [{ number := numbered }] }
  | handed (event : α) {before after : List (Waiter α)} {w : Waiter α}
      (hwaiters : a.waiters = before ++ w :: after) (hw : w.isUnresolved = true) :
      Step numbered a
        { a with
          sent := a.sent ++ [event], delivered := a.delivered ++ [(w.number, event)]
          waiters := before ++ { w with state := .handed event } :: after }
  | kept (event : α) (hnone : ∀ w ∈ a.waiters, w.isUnresolved = false) :
      Step numbered a { a with sent := a.sent ++ [event], kept := a.kept ++ [event] }
  | expired (waiter : Nat) :
      Step numbered a
        { a with waiters := a.waiters.map fun w => if w.number = waiter then w.expire else w }
  | left {waiter : Nat} {w : Waiter α}
      (hw : a.waiters.find? (fun w => w.number = waiter) = some w) :
      Step numbered a
        { a with
          ended := a.ended ++ [(waiter, w.received?)]
          waiters := a.waiters.filter fun w => w.number ≠ waiter }
  | idle : Step numbered a a

/-- **An account that is balanced**: nothing is lost, each wait stands in one way, and whoever was given
    an event is the one whose wait says so. -/
structure Balanced (numbered : Nat) (a : TokenAccount α) : Prop where
  inOrder : a.delivered.map Prod.snd ++ a.kept = a.sent
  fates_begun : (a.fates.map Prod.fst).Perm a.begun
  given_delivered : (given a.fates).Perm a.delivered
  nodup : a.begun.Nodup
  lt : ∀ n ∈ a.begun, n < numbered
  exclusive : a.kept = [] ∨ ∀ w ∈ a.waiters, w.isUnresolved = false

variable {a a' : TokenAccount α} {numbered : Nat}

theorem given_append (fs gs : List (Nat × Option α)) : given (fs ++ gs) = given fs ++ given gs :=
  List.filterMap_append

theorem given_cons_none (n : Nat) (fs : List (Nat × Option α)) :
    given ((n, none) :: fs) = given fs := rfl

theorem mem_given {fs : List (Nat × Option α)} {n : Nat} {event : α} :
    (n, event) ∈ given fs ↔ (n, some event) ∈ fs := by
  unfold given
  rw [List.mem_filterMap]
  constructor
  · rintro ⟨⟨m, r⟩, hmem, h⟩
    obtain ⟨e, he, heq⟩ := Option.map_eq_some_iff.mp h
    obtain ⟨rfl, rfl⟩ := Prod.mk.inj heq
    obtain rfl : r = some e := he
    exact hmem
  · intro h
    exact ⟨(n, some event), h, rfl⟩

/-- Numbers and events of the waits are as they were when nobody has got anything else. -/
theorem fates_of_waiters {ws : List (Waiter α)} {f : Waiter α → Waiter α}
    (hnumber : ∀ w, (f w).number = w.number) (hreceived : ∀ w, (f w).received? = w.received?) :
    (ws.map f).map (fun w => (w.number, w.received?)) = ws.map fun w => (w.number, w.received?) := by
  rw [List.map_map]
  refine List.map_congr_left fun w _ => ?_
  simp only [Function.comp_apply, hnumber, hreceived]

/-- A list of distinct waiters is one of them and the others. -/
theorem perm_cons_filter {waiter : Nat} {w : Waiter α} :
    ∀ {ws : List (Waiter α)}, (ws.map Waiter.number).Nodup →
    ws.find? (fun w => w.number = waiter) = some w →
    ws.Perm (w :: ws.filter fun w => w.number ≠ waiter)
  | [], _, h => absurd h (by simp)
  | v :: rest, hnodup, h => by
    obtain ⟨hv, hrest⟩ := List.nodup_cons.mp hnodup
    by_cases hnumber : v.number = waiter
    · -- the first one is it, and all others have other numbers
      obtain rfl : v = w := by simpa [hnumber] using h
      have hothers : rest.filter (fun w => w.number ≠ waiter) = rest := by
        refine List.filter_eq_self.mpr fun u hu => ?_
        have hne : u.number ≠ v.number := fun heq => hv (heq ▸ List.mem_map_of_mem hu)
        simpa [← hnumber] using hne
      rw [List.filter_cons_of_neg (by simp [hnumber]), hothers]
    · have hfound : rest.find? (fun w => w.number = waiter) = some w := by simpa [hnumber] using h
      rw [List.filter_cons_of_pos (by simpa using hnumber)]
      exact ((perm_cons_filter hrest hfound).cons v).trans (.swap ..)

theorem Balanced.nodup_fates (h : a.Balanced numbered) : (a.fates.map Prod.fst).Nodup :=
  h.fates_begun.nodup_iff.mpr h.nodup

theorem Balanced.nodup_waiters (h : a.Balanced numbered) : (a.waiters.map Waiter.number).Nodup := by
  have hall := h.nodup_fates
  rw [fates, List.map_append, List.map_map] at hall
  exact (List.nodup_append.mp hall).2.1

/-- The number of the next wait is new. -/
theorem Balanced.nodup_succ (h : a.Balanced numbered) : (a.begun ++ [numbered]).Nodup := by
  refine List.nodup_append.mpr ⟨h.nodup, by simp, ?_⟩
  intro n hn m hm heq
  obtain rfl := List.mem_singleton.mp hm
  exact absurd (h.lt n hn) (by omega)

/-! ### How waits stand after a step -/

section

variable {n : Nat} {r : Option α}

/-- One more wait has ended. -/
theorem perm_fates_of_ended (hended : a'.ended = a.ended ++ [(n, r)]) (hwaiters : a'.waiters = a.waiters) :
    a'.fates.Perm (a.fates ++ [(n, r)]) := by
  rw [fates, fates, hended, hwaiters, List.append_assoc, List.append_assoc]
  exact (List.perm_append_comm).append_left _

/-- One more wait goes on. -/
theorem fates_of_enlisted (hended : a'.ended = a.ended)
    (hwaiters : a'.waiters = a.waiters ++ [{ number := n }]) : a'.fates = a.fates ++ [(n, none)] := by
  simp [fates, hended, hwaiters, Waiter.received?]

/-- A wait of which time runs out is not given anything by that. -/
theorem fates_of_expired (hended : a'.ended = a.ended)
    (hwaiters : a'.waiters = a.waiters.map fun w => if w.number = n then w.expire else w) :
    a'.fates = a.fates := by
  rw [fates, fates, hended, hwaiters]
  congr 1
  refine fates_of_waiters (fun w => ?_) fun w => ?_
  · split <;> simp
  · split <;> simp

/-- What a waiter was given moves from the wait to its end. -/
theorem perm_fates_of_left (h : a.Balanced numbered) {w : Waiter α}
    (hw : a.waiters.find? (fun w => w.number = n) = some w)
    (hended : a'.ended = a.ended ++ [(n, w.received?)])
    (hwaiters : a'.waiters = a.waiters.filter fun w => w.number ≠ n) : a'.fates.Perm a.fates := by
  have hnumber : w.number = n := by simpa using List.find?_some hw
  have hperm := perm_cons_filter h.nodup_waiters hw
  rw [fates, fates, hended, hwaiters, List.append_assoc, ← hnumber]
  rw [← hnumber] at hperm
  exact ((hperm.map fun w => (w.number, w.received?)).symm).append_left _

/-- The wait of one waiter is resolved, who has been given nothing before. -/
theorem perm_given_of_handed {event : α} {before after : List (Waiter α)} {w : Waiter α}
    (hbefore : a.waiters = before ++ w :: after) (hw : w.received? = none) (hended : a'.ended = a.ended)
    (hafter : a'.waiters = before ++ { w with state := .handed event } :: after) :
    (given a'.fates).Perm (given a.fates ++ [(w.number, event)]) := by
  rw [fates, fates, hended, hbefore, hafter, List.map_append, List.map_append, List.map_cons, List.map_cons,
    hw, given_append, given_append, given_append, given_append, given_cons_none]
  show (given a.ended ++ (given _ ++ (w.number, event) :: given _)).Perm _
  refine ((List.perm_middle).append_left _).trans ?_
  exact (List.perm_middle).trans (List.perm_append_singleton ..).symm

end

/-- **A step keeps the balance.** -/
theorem Balanced.step (h : a.Balanced numbered) (hstep : Step numbered a a') {numbered' : Nat}
    (hnumbered : ∀ n ∈ a'.begun, n < numbered') : a'.Balanced numbered' := by
  cases hstep with
  | @received event rest hkept =>
    -- the oldest kept event is given to a wait that has ended already
    have hfates : (fates { a with
        delivered := a.delivered ++ [(numbered, event)], begun := a.begun ++ [numbered]
        ended := a.ended ++ [(numbered, some event)], kept := rest }).Perm
          (a.fates ++ [(numbered, some event)]) := perm_fates_of_ended rfl rfl
    refine ⟨?_, ?_, ?_, h.nodup_succ, hnumbered, ?_⟩
    · rw [← h.inOrder, hkept]
      simp
    · refine (hfates.map Prod.fst).trans ?_
      rw [List.map_append]
      exact h.fates_begun.append_right _
    · refine (hfates.filterMap _).trans ?_
      show (given (a.fates ++ [(numbered, some event)])).Perm _
      rw [given_append]
      exact h.given_delivered.append_right _
    · exact h.exclusive.elim (fun hnone => absurd (hkept.symm.trans hnone) (by simp)) .inr
  | began hkept =>
    have hfates : fates { a with begun := a.begun ++ [numbered], waiters := a.waiters ++ [{ number := numbered }] }
        = a.fates ++ [(numbered, none)] := fates_of_enlisted rfl rfl
    refine ⟨h.inOrder, ?_, ?_, h.nodup_succ, hnumbered, .inl hkept⟩
    · rw [hfates, List.map_append]
      exact h.fates_begun.append_right _
    · rw [hfates, given_append]
      simpa [given] using h.given_delivered
  | @handed event before after w hwaiters hw =>
    have hgiven : (given (fates { a with
        sent := a.sent ++ [event], delivered := a.delivered ++ [(w.number, event)]
        waiters := before ++ { w with state := .handed event } :: after })).Perm
          (given a.fates ++ [(w.number, event)]) :=
      perm_given_of_handed hwaiters (Waiter.received?_of_isUnresolved hw) rfl rfl
    -- somebody waits, so nothing is kept
    have hkept : a.kept = [] := by
      refine h.exclusive.resolve_right fun hall => ?_
      have hmem : w ∈ a.waiters := by rw [hwaiters]; simp
      exact absurd ((hall _ hmem).symm.trans hw) (by simp)
    refine ⟨?_, ?_, ?_, h.nodup, hnumbered, .inl hkept⟩
    · rw [← h.inOrder, hkept]
      simp
    · have hnumbers := h.fates_begun
      rw [fates, hwaiters] at hnumbers
      simpa [fates] using hnumbers
    · exact hgiven.trans (h.given_delivered.append_right _)
  | @kept event hnone =>
    refine ⟨?_, h.fates_begun, h.given_delivered, h.nodup, hnumbered, .inr hnone⟩
    rw [← h.inOrder, List.append_assoc]
  | expired waiter =>
    have hfates : fates { a with waiters := a.waiters.map fun w => if w.number = waiter then w.expire else w }
        = a.fates := fates_of_expired rfl rfl
    refine ⟨h.inOrder, hfates ▸ h.fates_begun, hfates ▸ h.given_delivered, h.nodup, hnumbered, ?_⟩
    refine h.exclusive.imp id fun hall w hw => ?_
    obtain ⟨v, hv, rfl⟩ := List.mem_map.mp hw
    split
    · have hresolved := hall v hv
      cases hexpired : v.expire.isUnresolved with
      | false => rfl
      | true => exact absurd (hresolved.symm.trans (Waiter.isUnresolved_of_expire hexpired)) (by simp)
    · exact hall v hv
  | @left waiter w hw =>
    have hfates : (fates { a with
        ended := a.ended ++ [(waiter, w.received?)]
        waiters := a.waiters.filter fun w => w.number ≠ waiter }).Perm a.fates :=
      perm_fates_of_left h hw rfl rfl
    refine ⟨h.inOrder, (hfates.map _).trans h.fates_begun, (hfates.filterMap _).trans h.given_delivered,
      h.nodup, hnumbered, ?_⟩
    exact h.exclusive.imp id fun hall w hw => hall w (List.mem_of_mem_filter hw)
  | idle => exact ⟨h.inOrder, h.fates_begun, h.given_delivered, h.nodup, hnumbered, h.exclusive⟩

/-! ### What a balance says -/

/-- Who was given an event, according to how the waits stand. -/
theorem Balanced.mem_delivered (h : a.Balanced numbered) {n : Nat} {event : α} :
    (n, event) ∈ a.delivered ↔ (n, some event) ∈ a.fates := by
  rw [← h.given_delivered.mem_iff, mem_given]

/-- A wait stands in one way. -/
theorem Balanced.fate_eq (h : a.Balanced numbered) {n : Nat} {r r' : Option α}
    (hr : (n, r) ∈ a.fates) (hr' : (n, r') ∈ a.fates) : r = r' :=
  (Prod.mk.inj (List.inj_on_of_nodup_map h.nodup_fates hr hr' rfl)).2

theorem sublist_given (fs : List (Nat × Option α)) :
    ((given fs).map Prod.fst).Sublist (fs.map Prod.fst) := by
  induction fs with
  | nil => exact .slnil
  | cons fate rest ih =>
    obtain ⟨n, r⟩ := fate
    cases r with
    | none => exact ih.cons n
    | some event => exact ih.cons_cons n

theorem Balanced.nodup_delivered (h : a.Balanced numbered) : (a.delivered.map Prod.fst).Nodup := by
  have hgiven : ((given a.fates).map Prod.fst).Nodup := h.nodup_fates.sublist (sublist_given _)
  exact (h.given_delivered.map Prod.fst).nodup_iff.mp hgiven

theorem Balanced.begun_of_delivered (h : a.Balanced numbered) {n : Nat} {event : α}
    (hn : (n, event) ∈ a.delivered) : n ∈ a.begun := by
  have hfate := List.mem_map_of_mem (f := Prod.fst) (h.mem_delivered.mp hn)
  exact h.fates_begun.mem_iff.mp hfate

/-- A waiter is found under its number. -/
theorem Balanced.find?_eq (h : a.Balanced numbered) {w : Waiter α} (hw : w ∈ a.waiters) :
    a.waiters.find? (fun v => v.number = w.number) = some w := by
  cases hfound : a.waiters.find? fun v => v.number = w.number with
  | none =>
    have hother := List.find?_eq_none.mp hfound w hw
    simp at hother
  | some v =>
    have hnumber : v.number = w.number := by simpa using List.find?_some hfound
    rw [List.inj_on_of_nodup_map h.nodup_waiters (List.mem_of_find?_eq_some hfound) hw hnumber]

end TokenAccount

/-! ## Runs -/

theorem TokenAccount.Step.of_eq {numbered : Nat} {a b c : TokenAccount α} (h : TokenAccount.Step numbered a b)
    (hc : c = b) : TokenAccount.Step numbered a c := hc ▸ h

namespace EventHost

variable {h : EventHost α} {token : String} {waiter : Nat} {event : α}

/-! ### What acts do -/

theorem act_wait_of_empty (hkept : h.mailbox.keptFor token = []) :
    h.act (.wait token)
      = (.began h.numbered, ⟨h.mailbox.enlist token h.numbered, h.numbered + 1⟩) := by
  simp [act, Mailbox.take?, hkept]

theorem act_wait_of_kept {rest : List α} (hkept : h.mailbox.keptFor token = event :: rest) :
    h.act (.wait token)
      = (.received h.numbered event, ⟨h.mailbox.withKept token rest, h.numbered + 1⟩) := by
  simp [act, Mailbox.take?, hkept]

/-- An event is kept when nobody waits. -/
theorem act_send_of_not_isWaiting (hnone : h.mailbox.isWaiting token = false) (event : α) :
    h.act (.send token event)
      = (.sent none, ⟨h.mailbox.withKept token (h.mailbox.keptFor token ++ [event]), h.numbered⟩) := by
  have hfirst : Waiter.handFirst event (h.mailbox.waitersOn token) = none :=
    Waiter.handFirst_eq_none.mpr hnone
  simp [act, Mailbox.send, hfirst]

/-- An event is taken by the first waiter whose wait goes on. -/
theorem act_send_of_isWaiting (hsome : h.mailbox.isWaiting token = true) (event : α) :
    ∃ before w after, h.mailbox.waitersOn token = before ++ w :: after ∧ w.isUnresolved = true
      ∧ h.act (.send token event)
        = (.sent (some w.number),
          ⟨h.mailbox.withWaiters token (before ++ { w with state := .handed event } :: after),
            h.numbered⟩) := by
  cases hfirst : Waiter.handFirst event (h.mailbox.waitersOn token) with
  | none => exact absurd (hsome.symm.trans (Waiter.handFirst_eq_none.mp hfirst)) (by simp)
  | some taken =>
    obtain ⟨n, ws⟩ := taken
    obtain ⟨before, w, after, hwaiters, -, hw, rfl, rfl⟩ := Waiter.handFirst_eq_some hfirst
    refine ⟨before, w, after, hwaiters, hw, ?_⟩
    simp [act, Mailbox.send, hfirst]

theorem act_resume_of_none (hleave : h.mailbox.leave? token waiter = none) :
    h.act (.resume token waiter) = (.nothing, h) := by
  simp [act, hleave]

theorem act_resume_of_some {event : Option α} {mailbox : Mailbox α}
    (hleave : h.mailbox.leave? token waiter = some (event, mailbox)) :
    h.act (.resume token waiter) = (.ended event, ⟨mailbox, h.numbered⟩) := by
  simp [act, hleave]

/-! ### What is known of a token -/

variable {log : List (Act α × Effect α)} {a : Act α}

/-- What is known of a token after a log of acts. -/
def account (h : EventHost α) (log : List (Act α × Effect α)) (token : String) : TokenAccount α where
  sent := sentOn token log
  delivered := deliveredOn token log
  begun := begunOn token log
  ended := endedOn token log
  kept := h.mailbox.keptFor token
  waiters := h.mailbox.waitersOn token

/-- The account of a token when one more act is noted. -/
theorem account_concat (h : EventHost α) (log : List (Act α × Effect α)) (entry : Act α × Effect α)
    (token : String) :
    h.account (log ++ [entry]) token
      = ⟨sentOn token log ++ (sentBy token entry).toList,
        deliveredOn token log ++ (deliveredBy token entry).toList,
        begunOn token log ++ (begunBy token entry).toList,
        endedOn token log ++ (endedBy token entry).toList,
        h.mailbox.keptFor token, h.mailbox.waitersOn token⟩ := by
  have hsingle {β : Type} (f : Act α × Effect α → Option β) :
      (log ++ [entry]).filterMap f = log.filterMap f ++ (f entry).toList := by
    rw [List.filterMap_append]
    cases hf : f entry <;> simp [hf]
  simp only [account, sentOn, deliveredOn, begunOn, endedOn, hsingle]

/-- **What an act does** to the account of its token. -/
theorem account_act (h : EventHost α) (log : List (Act α × Effect α)) (a : Act α) :
    TokenAccount.Step h.numbered (h.account log a.token)
      ((h.act a).2.account (log ++ [(a, (h.act a).1)]) a.token) := by
  rw [account_concat]
  cases a with
  -- each act does one step of the account, the one that its effect tells
  | wait token =>
    cases hkept : h.mailbox.keptFor token with
    | nil =>
      refine .of_eq (.began (a := h.account log token) hkept) ?_
      rw [act_wait_of_empty hkept]
      simp [Act.token, sentBy, deliveredBy, begunBy, endedBy, account, Mailbox.enlist]
    | cons event rest =>
      refine .of_eq (.received (a := h.account log token) hkept) ?_
      rw [act_wait_of_kept hkept]
      simp [Act.token, sentBy, deliveredBy, begunBy, endedBy, account]
  | send token event =>
    cases hwaiting : h.mailbox.isWaiting token with
    | false =>
      have hnone := Mailbox.isWaiting_eq_false.mp hwaiting
      refine .of_eq (.kept (a := h.account log token) event hnone) ?_
      rw [act_send_of_not_isWaiting hwaiting]
      simp [Act.token, sentBy, deliveredBy, begunBy, endedBy, account]
    | true =>
      obtain ⟨before, w, after, hwaiters, hw, hact⟩ := act_send_of_isWaiting hwaiting event
      refine .of_eq (.handed (a := h.account log token) event hwaiters hw) ?_
      rw [hact]
      simp [Act.token, sentBy, deliveredBy, begunBy, endedBy, account]
  | expire token waiter =>
    refine .of_eq (.expired (a := h.account log token) waiter) ?_
    simp [act, Act.token, sentBy, deliveredBy, begunBy, endedBy, account, Mailbox.expire]
  | resume token waiter =>
    cases hleave : h.mailbox.leave? token waiter with
    | none =>
      refine .of_eq (.idle (a := h.account log token)) ?_
      rw [act_resume_of_none hleave]
      simp [Act.token, sentBy, deliveredBy, begunBy, endedBy, account]
    | some gone =>
      obtain ⟨w, hw, hevent, hmailbox⟩ := Mailbox.leave?_eq_some hleave
      refine .of_eq (.left (a := h.account log token) hw) ?_
      rw [act_resume_of_some hleave]
      simp [Act.token, sentBy, deliveredBy, begunBy, endedBy, account, hevent, hmailbox,
        Mailbox.withdraw]

/-- Of other tokens an act shows nothing. -/
theorem unseen_of_ne (entry : Act α × Effect α) (hne : entry.1.token ≠ token) :
    sentBy token entry = none ∧ deliveredBy token entry = none ∧ begunBy token entry = none
      ∧ endedBy token entry = none := by
  obtain ⟨a, effect⟩ := entry
  cases a with
  | wait t => cases effect <;> exact ⟨rfl, by simp_all [deliveredBy, begunBy, endedBy, Act.token]⟩
  | send t event =>
    cases effect with
    | sent taker => cases taker <;> simp_all [sentBy, deliveredBy, begunBy, endedBy, Act.token]
    | _ => simp_all [sentBy, deliveredBy, begunBy, endedBy, Act.token]
  | expire t waiter => exact ⟨rfl, rfl, rfl, rfl⟩
  | resume t waiter => cases effect <;> simp_all [sentBy, deliveredBy, begunBy, endedBy, Act.token]

/-- Nor does it change what is kept for them, or who waits on them. -/
theorem mailbox_act_of_ne (h : EventHost α) (a : Act α) (hne : token ≠ a.token) :
    (h.act a).2.mailbox.keptFor token = h.mailbox.keptFor token
      ∧ (h.act a).2.mailbox.waitersOn token = h.mailbox.waitersOn token := by
  have hkept := fun events => h.mailbox.keptFor_withKept_of_ne hne events
  have hwaiters := fun ws => h.mailbox.waitersOn_withWaiters_of_ne hne ws
  -- each act changes one of the two at most, and for its own token
  cases a with
  | wait t =>
    cases hempty : h.mailbox.keptFor t with
    | nil =>
      rw [act_wait_of_empty hempty]
      exact ⟨rfl, hwaiters _⟩
    | cons event rest =>
      rw [act_wait_of_kept hempty]
      exact ⟨hkept _, rfl⟩
  | send t event =>
    cases hwaiting : h.mailbox.isWaiting t with
    | false =>
      rw [act_send_of_not_isWaiting hwaiting]
      exact ⟨hkept _, rfl⟩
    | true =>
      obtain ⟨before, w, after, -, -, hact⟩ := act_send_of_isWaiting hwaiting event
      rw [hact]
      exact ⟨rfl, hwaiters _⟩
  | expire t waiter => exact ⟨rfl, hwaiters _⟩
  | resume t waiter =>
    cases hleave : h.mailbox.leave? t waiter with
    | none =>
      rw [act_resume_of_none hleave]
      exact ⟨rfl, rfl⟩
    | some gone =>
      obtain ⟨w, -, -, hmailbox⟩ := Mailbox.leave?_eq_some hleave
      rw [act_resume_of_some hleave, hmailbox]
      exact ⟨rfl, hwaiters _⟩

/-- **An act leaves the accounts of other tokens alone.** -/
theorem account_act_of_ne (h : EventHost α) (log : List (Act α × Effect α)) (a : Act α)
    (hne : token ≠ a.token) :
    (h.act a).2.account (log ++ [(a, (h.act a).1)]) token = h.account log token := by
  obtain ⟨hsent, hdelivered, hbegun, hended⟩ :=
    unseen_of_ne (a, (h.act a).1) (Ne.symm hne)
  obtain ⟨hkept, hwaiters⟩ := h.mailbox_act_of_ne a hne
  rw [account_concat, hsent, hdelivered, hbegun, hended, hkept, hwaiters]
  simp [account]

/-- Waits are numbered in turn. -/
theorem begunBy_act {n : Nat} (hbegun : begunBy token (a, (h.act a).1) = some n) :
    a.token = token ∧ n = h.numbered ∧ (h.act a).2.numbered = h.numbered + 1 := by
  cases a with
  | wait t =>
    cases hkept : h.mailbox.keptFor t with
    | nil =>
      rw [act_wait_of_empty hkept] at hbegun ⊢
      obtain ⟨ht, hn⟩ := Option.ite_none_right_eq_some.mp hbegun
      exact ⟨ht, (Option.some.inj hn).symm, rfl⟩
    | cons event rest =>
      rw [act_wait_of_kept hkept] at hbegun ⊢
      obtain ⟨ht, hn⟩ := Option.ite_none_right_eq_some.mp hbegun
      exact ⟨ht, (Option.some.inj hn).symm, rfl⟩
  | _ => exact absurd hbegun (by simp [begunBy])

theorem numbered_le_act (h : EventHost α) (a : Act α) : h.numbered ≤ (h.act a).2.numbered := by
  cases a with
  | wait t =>
    unfold act
    dsimp only
    split <;> exact Nat.le_succ _
  | resume t waiter =>
    unfold act
    dsimp only
    split <;> exact Nat.le_refl _
  | _ => exact Nat.le_refl _

/-! ### The invariant -/

/-- **What is so after every log of acts**: all accounts are balanced, and no wait is one on two
    tokens. -/
structure Sound (h : EventHost α) (log : List (Act α × Effect α)) : Prop where
  balanced : ∀ token, (h.account log token).Balanced h.numbered
  apart : ∀ t t' n, n ∈ begunOn t log → n ∈ begunOn t' log → t = t'

theorem mem_begunOn_concat {entry : Act α × Effect α} {n : Nat} :
    n ∈ begunOn token (log ++ [entry]) ↔ n ∈ begunOn token log ∨ begunBy token entry = some n := by
  simp [begunOn, List.filterMap_append, List.mem_filterMap]

/-- An act keeps the invariant. -/
theorem Sound.act (hs : h.Sound log) (a : Act α) :
    (h.act a).2.Sound (log ++ [(a, (h.act a).1)]) := by
  have hlt (t : String) : ∀ n ∈ begunOn t (log ++ [(a, (h.act a).1)]), n < (h.act a).2.numbered := by
    intro n hn
    rcases mem_begunOn_concat.mp hn with hn | hn
    · exact Nat.lt_of_lt_of_le ((hs.balanced t).lt n hn) (h.numbered_le_act a)
    · obtain ⟨-, rfl, hnext⟩ := begunBy_act hn
      omega
  constructor
  · intro t
    by_cases ht : t = a.token
    · subst ht
      exact (hs.balanced _).step (h.account_act log a) (hlt _)
    · -- another token: only the number of the next wait has changed
      have hsame := h.account_act_of_ne log a ht
      have hbalanced := hs.balanced t
      have hbegun : ∀ n ∈ (h.account log t).begun, n < (h.act a).2.numbered := by
        rw [← hsame]
        exact hlt t
      rw [hsame]
      exact { hbalanced with lt := hbegun }
  · intro t t' n hn hn'
    rcases mem_begunOn_concat.mp hn with hn | hn
    · rcases mem_begunOn_concat.mp hn' with hn' | hn'
      · exact hs.apart t t' n hn hn'
      · obtain ⟨-, rfl, -⟩ := begunBy_act hn'
        exact absurd ((hs.balanced t).lt _ hn) (by omega)
    · rcases mem_begunOn_concat.mp hn' with hn' | hn'
      · obtain ⟨-, rfl, -⟩ := begunBy_act hn
        exact absurd ((hs.balanced t').lt _ hn') (by omega)
      · exact (begunBy_act hn).1.symm.trans (begunBy_act hn').1

/-- **Acts in any order keep the invariant.** -/
theorem Sound.run (hs : h.Sound log) (acts : List (Act α)) :
    (h.run acts).2.Sound (log ++ (h.run acts).1) := by
  induction acts generalizing h log with
  | nil => simpa [EventHost.run] using hs
  | cons a rest ih =>
    have hnext := ih (hs.act a)
    rw [List.append_assoc] at hnext
    exact hnext

theorem sound_empty : ({} : EventHost α).Sound [] := by
  constructor
  · intro token
    exact ⟨rfl, .nil, .nil, .nil, by simp [account, begunOn], .inl rfl⟩
  · intro t t' n hn
    exact absurd hn (by simp [begunOn])

/-! ### Deliveries -/

/-- **Faithful delivery.** -/
structure Delivers (h : EventHost α) (log : List (Act α × Effect α)) : Prop where
  /-- The events that were delivered on a token, and then those that are kept, are those that were
      sent, in the order in which they were. -/
  inOrder : ∀ token, (deliveredOn token log).map Prod.snd ++ h.mailbox.keptFor token = sentOn token log
  /-- No waiter is given two events. -/
  once : ∀ token, ((deliveredOn token log).map Prod.fst).Nodup
  /-- Events are given to waiters on their own token, -/
  own : ∀ token n event, (n, event) ∈ deliveredOn token log → n ∈ begunOn token log
  /-- and nobody waits on two tokens. -/
  apart : ∀ t t' n, n ∈ begunOn t log → n ∈ begunOn t' log → t = t'
  /-- A wait that has ended returned the event that its waiter was given, and nothing otherwise. -/
  returned : ∀ token n event?, (n, event?) ∈ endedOn token log →
    ∀ event, event? = some event ↔ (n, event) ∈ deliveredOn token log
  /-- A waiter that was given an event has returned with it, or does so when its task goes on. -/
  arrives : ∀ token n event, (n, event) ∈ deliveredOn token log →
    (n, some event) ∈ endedOn token log ∨ (h.act (.resume token n)).1 = .ended (some event)
  /-- No event is kept while somebody waits. -/
  exclusive : ∀ token, h.mailbox.keptFor token = [] ∨ h.mailbox.isWaiting token = false
  /-- An event is reported as taken just when somebody waits, who then returns with it. -/
  reported : ∀ token event, ∃ taker, (h.act (.send token event)).1 = .sent taker
    ∧ (taker.isSome = true ↔ h.mailbox.isWaiting token = true)
    ∧ ∀ n ∈ taker, (∃ w ∈ h.mailbox.waitersOn token, w.number = n ∧ w.isUnresolved = true)
      ∧ ((h.act (.send token event)).2.act (.resume token n)).1 = .ended (some event)

/-- A waiter that was given an event returns with it as soon as its task goes on. -/
theorem Sound.resumes (hs : h.Sound log) {w : Waiter α} (hw : w ∈ h.mailbox.waitersOn token)
    (hgiven : w.received? = some event) :
    (h.act (.resume token w.number)).1 = .ended (some event) := by
  have hfound := (hs.balanced token).find?_eq hw
  rw [act_resume_of_some (Mailbox.leave?_of_handed hfound hgiven)]

/-- What the invariant says of deliveries. -/
theorem Sound.delivers (hs : h.Sound log) : h.Delivers log where
  inOrder token := (hs.balanced token).inOrder
  once token := (hs.balanced token).nodup_delivered
  own token n event hn := (hs.balanced token).begun_of_delivered hn
  apart := hs.apart
  returned token n event? hn event := by
    have hbalanced := hs.balanced token
    have hfate : (n, event?) ∈ (h.account log token).fates := List.mem_append_left _ hn
    constructor
    · rintro rfl
      exact hbalanced.mem_delivered.mpr hfate
    · intro hdelivered
      exact hbalanced.fate_eq hfate (hbalanced.mem_delivered.mp hdelivered)
  arrives token n event hn := by
    rcases List.mem_append.mp ((hs.balanced token).mem_delivered.mp hn) with hended | hwaits
    · exact .inl hended
    · obtain ⟨w, hw, heq⟩ := List.mem_map.mp hwaits
      obtain ⟨rfl, hgiven⟩ := Prod.mk.inj heq
      exact .inr (hs.resumes hw hgiven)
  exclusive token := (hs.balanced token).exclusive.imp id Mailbox.isWaiting_eq_false.mpr
  reported token event := by
    have hafter := hs.act (.send token event)
    cases hwaiting : h.mailbox.isWaiting token with
    | false =>
      rw [act_send_of_not_isWaiting hwaiting]
      exact ⟨none, rfl, by simp, by simp⟩
    | true =>
      obtain ⟨before, w, after, hwaiters, hw, hact⟩ := act_send_of_isWaiting hwaiting event
      rw [hact] at hafter ⊢
      refine ⟨some w.number, rfl, by simp, ?_⟩
      rintro n hn
      obtain rfl := Option.some.inj hn
      refine ⟨⟨w, by rw [hwaiters]; simp, rfl, hw⟩, ?_⟩
      exact hafter.resumes (w := { w with state := .handed event }) (by simp) rfl

/-- Two wait, the first in vain; of three events the second waiter is given one, which nobody takes from
    it although its time runs out before its task goes on. -/
example :
    deliveredOn "t" (run ({} : EventHost Nat)
      [.wait "t", .wait "t", .expire "t" 0, .send "t" 7, .send "t" 8, .expire "t" 1, .send "t" 9,
        .resume "t" 1, .wait "t"]).1 = [(1, 7), (2, 8)] := by decide

end EventHost

end Runbook
