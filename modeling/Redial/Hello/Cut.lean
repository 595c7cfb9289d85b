import Redial.Hello.Bytes
import Redial.Hello.SplitStrategy

/-!
# Cutting a hello

A hello is cut at the offset that the strategy chooses, but never behind its middle, so a short
hello does not lose its second piece. An empty hello has two empty pieces and no question is asked.
-/

namespace Redial

/-- The two pieces of a hello. -/
structure Cut where
  /-- What is sent first. -/
  first : Bytes
  /-- What is sent second. -/
  second : Bytes
  deriving DecidableEq

/-- Cuts `bytes` in two at `offset`, or in the middle if that comes first. -/
def Cut.at (bytes : Bytes) (offset : Nat) : Cut :=
  let k := min offset (bytes.length / 2)
  ⟨bytes.take k, bytes.drop k⟩

/-- The two pieces make up what was cut. -/
theorem Cut.first_append_second_at (bytes : Bytes) (offset : Nat) :
    (Cut.at bytes offset).first ++ (Cut.at bytes offset).second = bytes :=
  List.take_append_drop _ _

namespace SplitStrategy

/-- Cuts a hello, and the strategy for the next one. -/
def cut (s : SplitStrategy) (hello : Bytes) : Cut × SplitStrategy :=
  if hello.isEmpty then (⟨[], []⟩, s)
  else
    let (o, s) := s.offset hello.length
    (Cut.at hello o, s)

/-- The two pieces make up the hello, whatever the strategy answers. -/
theorem first_append_second_cut (s : SplitStrategy) (hello : Bytes) :
    (s.cut hello).1.first ++ (s.cut hello).1.second = hello := by
  unfold cut
  split
  · rename_i h
    rw [List.isEmpty_iff.mp h]
    rfl
  · exact Cut.first_append_second_at hello _

/-- Cuts a series of hellos, and the strategy after them. -/
def cuts (s : SplitStrategy) : List Bytes → List Cut × SplitStrategy
  | [] => ([], s)
  | h :: hs =>
    let (c, s) := s.cut h
    let (cs, s) := s.cuts hs
    (c :: cs, s)

end SplitStrategy

end Redial
