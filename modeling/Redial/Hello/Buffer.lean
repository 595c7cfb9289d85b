import Redial.Hello.Bytes

/-!
# The hello

What has been written while the question of a retry is open, write by write. It is kept so that it
can be replayed.
-/

namespace Redial

/-- What has been written, the latest write first. -/
structure Hello where
  /-- The bytes that each write was accepted with; a write may be accepted with none. -/
  writes : List Bytes
  deriving DecidableEq

namespace Hello

/-- Nothing has been written. -/
def empty : Hello := ⟨[]⟩

/-- One more write. -/
def push (h : Hello) (bytes : Bytes) : Hello := ⟨bytes :: h.writes⟩

/-- The bytes in order. -/
def bytes (h : Hello) : Bytes := h.writes.reverse.flatten

/-- How many bytes have been written. -/
def length (h : Hello) : Nat := h.bytes.length

/-- How many writes there were. -/
def chunks (h : Hello) : Nat := h.writes.length

@[simp] theorem bytes_empty : empty.bytes = [] := rfl

@[simp] theorem bytes_push (h : Hello) (bs : Bytes) : (h.push bs).bytes = h.bytes ++ bs := by
  simp [bytes, push]

@[simp] theorem chunks_push (h : Hello) (bs : Bytes) : (h.push bs).chunks = h.chunks + 1 := by
  simp [chunks, push]

theorem length_push (h : Hello) (bs : Bytes) : (h.push bs).length = h.length + bs.length := by
  simp [length]

end Hello

end Redial
