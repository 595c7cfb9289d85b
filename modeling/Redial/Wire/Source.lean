import Redial.Wire.Script

/-!
# Sources

Where a copy reads from: pieces that come one after the other, with faults between them. A read
takes bytes from one piece only. An empty piece is one end of the source, and so is the end of the
script.
-/

namespace Redial

/-- A source. -/
structure Source where
  /-- What it yields. -/
  items : List (Gated Arrival)
  deriving DecidableEq

namespace Source

/-- Reads at most `len` bytes; nothing happens while the next piece is not ready. No bytes mean the
end of the source. -/
def pull (s : Source) (opened : List Gate) (len : Nat) : Option (Source × Except Fault Bytes) :=
  match s.items with
  | [] => some (s, .ok [])
  | g :: rest =>
    if g.ready opened then
      match g.item with
      | .fault f => some (⟨rest⟩, .error f)
      | .data bytes =>
        match bytes.drop len with
        | [] => some (⟨rest⟩, .ok (bytes.take len))
        | left => some (⟨{ g with item := .data left } :: rest⟩, .ok (bytes.take len))
    else none

/-- A bound for the work of moving an item: one step for the item and two for each byte. -/
def itemWork (g : Gated Arrival) : Nat :=
  match g.item with
  | .data bytes => 1 + 2 * bytes.length
  | .fault _ => 1

/-- A bound for the work of moving everything that a source yields. -/
def work (s : Source) : Nat := s.items.foldr (fun g n => itemWork g + n) 0

end Source

end Redial
