import Redial.Journal.Event
import Redial.Wire.Link

/-!
# The world

Everything outside a stream: the clock, the gates that have been opened, the dials with their
scripts, the connections that they made, and the journal of what happened. Dial calls are numbered
from 0, and a connection is known by the number of the dial call that made it.

An attempt at a call that has to wait changes nothing; an attempt that comes to an end is entered in
the journal.
-/

namespace Redial

/-- Everything outside a stream. -/
structure World where
  /-- The clock. -/
  now : Instant
  /-- The gates that have been opened. -/
  opened : List Gate
  /-- The scripts of the dial calls, by number. -/
  dials : List (Gated DialScript)
  /-- The connection that each dial call has made, if it has made one. -/
  links : List (Option Link)
  /-- What happened. -/
  journal : Journal

namespace World

/-- A world in which nothing has happened. -/
def fresh (now : Instant) (dials : List (Gated DialScript)) : World := ⟨now, [], dials, [], []⟩

/-- The connection with a given number. -/
def link? (w : World) (i : LinkId) : Option Link := w.links[i]?.join

/-- Puts a connection in its place. -/
def setLink (w : World) (i : LinkId) (l : Link) : World :=
  { w with links := w.links.set i (some l) }

/-- Enters an event. -/
def enter (w : World) (e : Event) : World := { w with journal := ⟨w.now, e⟩ :: w.journal }

/-- Enters a report of the stream. -/
def note (w : World) (n : Notice) : World := w.enter (.noticed n)

/-! ## Calls that may wait -/

/-- Reads at most `len` bytes from a connection for a task. -/
def read (w : World) (i : LinkId) (task : TaskId) (len : Nat) :
    Option (World × Except Fault Bytes) := do
  let l ← w.link? i
  let (l, r) ← l.read w.now w.opened len
  let event := match r with
    | .ok bytes => Event.delivered i task bytes
    | .error f => Event.readFailed i task f
  some ((w.setLink i l).enter event, r)

/-- Writes some bytes from the front of `buf` to a connection, and returns those that were
accepted. -/
def write (w : World) (i : LinkId) (purpose : Purpose) (buf : Bytes) :
    Option (World × Except Fault Bytes) := do
  let l ← w.link? i
  let (l, r) ← l.write w.opened buf
  let event := match r with
    | .ok bytes => Event.accepted i purpose bytes
    | .error f => Event.writeFailed i purpose buf f
  some ((w.setLink i l).enter event, r)

/-- Asks to shut a half of a connection. -/
def shut (w : World) (i : LinkId) (half : Half) : Option (World × ShutAnswer) := do
  let l ← w.link? i
  let (l, r) ← l.shut w.opened half
  some ((w.setLink i l).enter (.shut i half r), r)

/-! ## Calls that do not wait -/

/-- Asks to close a connection. -/
def close (w : World) (i : LinkId) : World × ShutAnswer :=
  match w.link? i with
  | none => (w, none)
  | some l =>
    let (l, r) := l.close
    ((w.setLink i l).enter (.closed i r), r)

/-- Sets or clears the read deadline of a connection. -/
def setDeadline (w : World) (i : LinkId) (deadline : Option Instant) : World :=
  match w.link? i with
  | none => w
  | some l => (w.setLink i { l with deadline := deadline }).enter (.deadline i deadline)

/-! ## Dialling -/

/-- Makes a dial call, and returns its number. -/
def dial (w : World) (destination : Address) : World × LinkId :=
  ({ w with links := w.links ++ [none] }.enter (.dialling destination), w.links.length)

/-- Ends a dial call as its script says. -/
def connect (w : World) (i : LinkId) (script : DialScript) : World × Except Fault LinkId :=
  let w := { w with now := w.now.advance script.latency }
  match script.answer with
  | .error f => (w.enter (.dialFailed f), .error f)
  | .ok link => ((w.setLink i (.ofScript link)).enter (.connected i), .ok i)

/-- Ends a dial call once its script is ready. A dial beyond the script is refused at once. -/
def dialled (w : World) (i : LinkId) : Option (World × Except Fault LinkId) :=
  match w.dials[i]? with
  | none => some (w.connect i .refused)
  | some g => if g.ready w.opened then some (w.connect i g.item) else none

/-- Ends a dial call without regard to its gate. -/
def dialledAtOnce (w : World) (i : LinkId) : World × Except Fault LinkId :=
  w.connect i ((w.dials[i]?.map (·.item)).getD .refused)

/-! ## What happens by itself -/

/-- Opens a gate. -/
def openGate (w : World) (gate : Gate) : World := { w with opened := gate :: w.opened }

/-- Lets time pass. -/
def elapse (w : World) (nanos : Nat) : World := { w with now := w.now.advance nanos }

/-- Appends to the script of a connection, if there is one with that number. -/
def feed (w : World) (i : LinkId) (more : LinkScript) : World :=
  match w.link? i with
  | none => w
  | some l => w.setLink i (l.feed more)

/-! ## Work -/

/-- How many outcomes of writes are still to come on the connections that the dial calls have made
or will make. -/
def scriptedWrites : List (Gated DialScript) → List (Option Link) → Nat
  | [], [] => 0
  | [], l :: ls => (l.elim 0 (·.writes.length)) + scriptedWrites [] ls
  | d :: ds, [] => (d.item.answer.toOption.elim 0 (·.writes.length)) + scriptedWrites ds []
  | d :: ds, l :: ls =>
    (match l with
      | some l => l.writes.length
      | none => d.item.answer.toOption.elim 0 (·.writes.length)) + scriptedWrites ds ls

end World

end Redial
