import Mathlib.Tactic.Ring
import Redial.Hello.Cut

/-!
# Offsets and pieces

A uniform draw stays in its range (`KeyStream.draw_mem`): its place in the range is the high half of
a product with two words (`KeyStream.draw_of_part`), so the carry that the second word can bring
does not lead past the last number. A series of hellos is cut by one draw after the other, none of
them for an empty hello (`uniform_cuts_in_turn`). A hello of two bytes or more has two pieces with
something in them then, unless the range begins at 0.
-/

namespace Redial

/-! ## Draws -/

theorem KeyStream.next_lt (s : KeyStream) (width : WordWidth) : (s.next width).1 < width.count := by
  cases width with
  | single => exact (s.next32).1.toNat_lt
  | double => exact (s.next64).1.toNat_lt

/-- The numbers of a range fit into the words that are used for it. -/
theorem WordWidth.hi_lt (range : OffsetRange) : range.hi < (WordWidth.of range).count := by
  unfold WordWidth.of
  split
  · assumption
  · exact range.hi_lt

/-- A range has no more numbers than there are words. -/
theorem OffsetRange.size_le (range : OffsetRange) : range.size ≤ (WordWidth.of range).count := by
  have hhi := WordWidth.hi_lt range
  unfold size
  omega

theorem OffsetRange.size_pos (range : OffsetRange) : 0 < range.size := Nat.succ_pos _

theorem OffsetRange.add_mem (range : OffsetRange) {place : Nat} (h : place < range.size) :
    range.lo + place ∈ range := by
  have hle := range.lo_le_hi
  unfold size at h
  rw [mem_iff]
  omega

/-- The high half of a product is a place in the range. -/
theorem high_lt {x bound size : Nat} (hx : x < bound) (hs : 0 < size) :
    x * size / bound < size := by
  rw [Nat.div_lt_iff_lt_mul (Nat.zero_lt_of_lt hx), Nat.mul_comm size]
  exact Nat.mul_lt_mul_of_pos_right hx hs

/-- With two words as one number of twice the width, the high half of the product is that of the
first word, and what the low halves carry into it. -/
theorem high_of_two_words {x y bound size : Nat} (hy : y < bound) (hs : size < bound) :
    (x * bound + y) * size / (bound * bound) =
      x * size / bound + if bound ≤ x * size % bound + y * size / bound then 1 else 0 := by
  have hbound : 0 < bound := Nat.zero_lt_of_lt hy
  have hcarry : y * size / bound < bound := by
    rw [Nat.div_lt_iff_lt_mul hbound]
    exact Nat.mul_lt_mul'' hy hs
  have hlow : x * size % bound < bound := Nat.mod_lt _ hbound
  calc (x * bound + y) * size / (bound * bound)
      = (bound * (x * size) + y * size) / bound / bound := by
        rw [Nat.div_div_eq_div_mul]
        congr 1
        ring
    _ = (x * size + y * size / bound) / bound := by
        rw [Nat.mul_add_div hbound]
    _ = (bound * (x * size / bound) + (x * size % bound + y * size / bound)) / bound := by
        rw [← Nat.add_assoc, Nat.div_add_mod]
    _ = x * size / bound + (x * size % bound + y * size / bound) / bound := by
        rw [Nat.mul_add_div hbound]
    _ = _ := by
        congr 1
        split
        · rename_i hle
          exact Nat.div_eq_of_lt_le (by omega) (by omega)
        · rename_i hlt
          exact Nat.div_eq_of_lt (Nat.lt_of_not_le hlt)

/-- Where every word stands for a number of the range, the word itself is drawn. -/
theorem KeyStream.draw_of_whole (s : KeyStream) {range : OffsetRange}
    (h : range.size = (WordWidth.of range).count) :
    (s.draw range).1 = range.lo + (s.next (WordWidth.of range)).1 := by
  unfold draw
  dsimp only
  rw [h, Nat.mod_self, if_pos rfl]

/-- Elsewhere the place of a draw is the high half of the product of the range with two words, the
second of which is read only where it matters. -/
theorem KeyStream.draw_of_part (s : KeyStream) {range : OffsetRange}
    (h : range.size < (WordWidth.of range).count) {x y : Nat} {s₁ : KeyStream}
    (hx : s.next (WordWidth.of range) = (x, s₁)) (hy : (s₁.next (WordWidth.of range)).1 = y) :
    (s.draw range).1 = range.lo +
      (x * (WordWidth.of range).count + y) * range.size /
        ((WordWidth.of range).count * (WordWidth.of range).count) := by
  have hyword : y < (WordWidth.of range).count := hy ▸ s₁.next_lt _
  have hpos := range.size_pos
  have hhigh := high_lt hyword hpos
  rw [high_of_two_words hyword h]
  unfold draw
  dsimp only
  rw [Nat.mod_eq_of_lt h, if_neg (Nat.ne_of_gt hpos), hx]
  dsimp only
  split
  · rw [hy]
    split <;> rfl
  · rename_i hroom
    -- The low half of the first product has room for whatever the second word adds.
    rw [if_neg (by omega)]
    rfl

/-- The first word alone has its place at 3087081591926349094; the second one adds a carry. -/
example : ((KeyStream.ofSeed 6).draw ⟨1, 2 ^ 63 + 1, by decide, by decide⟩).1 =
    1 + (6174163183852698189 * (2 ^ 63 + 1) / 2 ^ 64 + 1) := by decide +kernel

/-- A draw is one of the numbers of its range. -/
theorem KeyStream.draw_mem (s : KeyStream) (range : OffsetRange) : (s.draw range).1 ∈ range := by
  have hword := s.next_lt (WordWidth.of range)
  rcases Nat.eq_or_lt_of_le range.size_le with hwhole | hpart
  · rw [s.draw_of_whole hwhole]
    exact range.add_mem (hwhole ▸ hword)
  · obtain ⟨x, s₁, hx⟩ : ∃ x s₁, s.next (WordWidth.of range) = (x, s₁) := ⟨_, _, rfl⟩
    rw [hx] at hword
    have hpair : x * (WordWidth.of range).count + (s₁.next (WordWidth.of range)).1 <
        (WordWidth.of range).count * (WordWidth.of range).count := by
      calc _ < (x + 1) * (WordWidth.of range).count := by
            rw [Nat.succ_mul]
            exact Nat.add_lt_add_left (s₁.next_lt _) _
        _ ≤ _ := Nat.mul_le_mul_right _ hword
    rw [s.draw_of_part hpart hx rfl]
    exact range.add_mem (high_lt hpair range.size_pos)

/-! ## Pieces -/

/-- Where a hello is cut for an offset: behind it, but not behind its middle. -/
def Cut.place (offset helloLen : Nat) : Nat := min offset (helloLen / 2)

theorem Cut.place_le (offset helloLen : Nat) : Cut.place offset helloLen ≤ helloLen := by
  unfold place
  omega

/-- The pieces of a hello are what lies before the place of the cut and behind it, and the strategy
is asked for the cut of a hello with something in it. -/
theorem SplitStrategy.cut_eq {s : SplitStrategy} {hello : Bytes} {place : Nat}
    (h : place = Cut.place (s.offset hello.length).1 hello.length) :
    s.cut hello = (⟨hello.take place, hello.drop place⟩,
      if hello = [] then s else (s.offset hello.length).2) := by
  subst h
  unfold cut
  cases hello with
  | nil => simp
  | cons b bs => rfl

/-- A uniform strategy whose offsets begin at 1 cuts a hello of two bytes or more in two pieces with
something in them, and as far behind its front as the range and the hello allow. -/
theorem Cut.place_uniform {range : OffsetRange} {stream : KeyStream} {hello : Bytes}
    (hlo : 1 ≤ range.lo) (hlen : 2 ≤ hello.length) {k : Nat}
    (hk : k = Cut.place ((SplitStrategy.uniform range stream).offset hello.length).1 hello.length) :
    hello.take k ≠ [] ∧ hello.drop k ≠ [] ∧
      min range.lo (hello.length / 2) ≤ k ∧ k ≤ min range.hi (hello.length / 2) := by
  have hdraw : range.lo ≤ (stream.draw range).1 ∧ (stream.draw range).1 ≤ range.hi :=
    stream.draw_mem range
  have hplace : k = min (stream.draw range).1 (hello.length / 2) := hk
  refine ⟨?_, ?_, by omega, by omega⟩
  · rw [← List.length_pos_iff, List.length_take]
    omega
  · rw [← List.length_pos_iff, List.length_drop]
    omega

/-! ## Series of hellos -/

theorem KeyStream.mem_of_mem_draws {range : OffsetRange} {n offset : Nat} {s : KeyStream}
    (h : offset ∈ (s.draws range n).1) : offset ∈ range := by
  induction n generalizing s with
  | zero => cases h
  | succ n ih =>
    rcases List.mem_cons.mp h with rfl | h
    · exact s.draw_mem range
    · exact ih h

/-- Hellos are cut in turn: each one with something in it takes the next offset, and is cut there or
in its middle, whichever comes first. An empty one takes no offset. -/
inductive CutInTurn : List Nat → List Bytes → List Cut → Prop where
  | nil : CutInTurn [] [] []
  | empty {offsets hellos cuts} (h : CutInTurn offsets hellos cuts) :
      CutInTurn offsets ([] :: hellos) (⟨[], []⟩ :: cuts)
  | cut {offset offsets hello hellos cut cuts} (hhello : hello ≠ [])
      (hpieces : cut.first ++ cut.second = hello)
      (hplace : cut.first.length = min offset (hello.length / 2)) (hsecond : cut.second ≠ [])
      (h : CutInTurn offsets hellos cuts) :
      CutInTurn (offset :: offsets) (hello :: hellos) (cut :: cuts)

theorem Cut.length_first_at (bytes : Bytes) (offset : Nat) :
    (Cut.at bytes offset).first.length = min offset (bytes.length / 2) := by
  show (bytes.take (min offset (bytes.length / 2))).length = _
  rw [List.length_take]
  omega

/-- The second piece begins before the end. -/
theorem Cut.second_at_ne_nil {bytes : Bytes} (h : bytes ≠ []) (offset : Nat) :
    (Cut.at bytes offset).second ≠ [] := by
  have hpos := List.length_pos_iff.mpr h
  show bytes.drop (min offset (bytes.length / 2)) ≠ []
  rw [← List.length_pos_iff, List.length_drop]
  omega

/-- From any place of any stream on, a uniform strategy draws one offset for each hello that is not
empty, cuts the hellos in turn by them, and goes on behind the last draw. All of the offsets are in
the range. -/
theorem uniform_cuts_in_turn (range : OffsetRange) (stream : KeyStream) (hellos : List Bytes) :
    (∀ offset ∈ (stream.draws range (hellos.countP (· ≠ []))).1, offset ∈ range) ∧
    CutInTurn (stream.draws range (hellos.countP (· ≠ []))).1 hellos
      ((SplitStrategy.uniform range stream).cuts hellos).1 ∧
    ((SplitStrategy.uniform range stream).cuts hellos).2 =
      .uniform range (stream.draws range (hellos.countP (· ≠ []))).2 := by
  refine ⟨fun offset h => KeyStream.mem_of_mem_draws h, ?_⟩
  induction hellos generalizing stream with
  | nil => exact ⟨.nil, rfl⟩
  | cons hello hellos ih =>
    by_cases hempty : hello = []
    · subst hempty
      obtain ⟨hturn, hstrategy⟩ := ih stream
      rw [List.countP_cons_of_neg (by simp)]
      exact ⟨.empty hturn, hstrategy⟩
    · obtain ⟨hturn, hstrategy⟩ := ih (stream.draw range).2
      have hcut : (SplitStrategy.uniform range stream).cut hello =
          (Cut.at hello (stream.draw range).1, .uniform range (stream.draw range).2) := by
        unfold SplitStrategy.cut
        rw [if_neg (by simpa using hempty)]
        rfl
      rw [List.countP_cons_of_pos (by simpa using hempty)]
      unfold SplitStrategy.cuts
      rw [hcut]
      refine ⟨.cut hempty ?_ ?_ ?_ hturn, hstrategy⟩
      · exact Cut.first_append_second_at hello _
      · exact Cut.length_first_at hello _
      · exact Cut.second_at_ne_nil hempty _

end Redial
