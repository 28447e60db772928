import Runbook.Remote.Http

/-!
# `Remote.Script` — remote sides that follow a script

A scripted remote side has a list of replies for each target, and answers the requests to it one
after the other; the last reply is repeated. Targets without replies of their own share one list.

## Contents
- **Replies.** `Reply`, with a delay, and `Reply.unrouted`.
- **The script.** `Remote` and `Remote.answer`.
-/

namespace Runbook

/-- A reply to a request. -/
structure Reply where
  /-- A response, or the reason why there is none. -/
  response : Except String Response
  /-- Milliseconds before the reply arrives. -/
  delayMs : Float := 0.0
  /-- Whether the message in the body of the request is handed to a worker first. -/
  delivers : Bool := false

/-- The reply where nothing is scripted. -/
def Reply.unrouted : Reply := { response := .ok (.ofText 404 "no route") }

/-- A scripted remote side. -/
structure Remote where
  replies : Keyed (List Reply) := []
  /-- How many replies were taken from each list. -/
  taken : Keyed Nat := []

namespace Remote

/-- The name of the shared list. -/
def shared : String := "*"

/-- The list that replies to a target are taken from. -/
def listFor (r : Remote) (target : String) : String :=
  if r.replies.has target then target else shared

/-- The reply to a request, and the remote side after it. -/
def answer (r : Remote) (request : Request) : Reply × Remote :=
  let list := r.listFor request.target
  let count := (r.taken.get? list).getD 0
  let replies := (r.replies.get? list).getD []
  let reply := (replies[count]?).getD (replies.getLast?.getD .unrouted)
  (reply, { r with taken := r.taken.put list (count + 1) })

end Remote

end Runbook
