import Mathlib.Data.List.Rotate
import Cookbook.Cooking

/-!
# Cookbook.Proofs.Kitchen.Stirring

Stirring is a rotation (`stir_rotates`).  The top of a stack sinks through as many
values as the depth says, or through all of them (`Stack.sinkage`).  The values it
passes and the top itself make up the front of the stack, and this front is rotated
by one place (`Stack.stir_append`), so stirring as often as the front is long puts
everything back.
-/

namespace Cookbook

namespace Stack

variable {s : Stack} {front back : List Value} {depth : Nat}

/-- How many values the top sinks through. -/
def sinkage (s : Stack) (depth : Nat) : Nat := min depth (s.size - 1)

/-- Stirs a number of times. -/
def stirs (s : Stack) (depth : Nat) : Nat → Except Shortage Stack
  | 0 => .ok s
  | n + 1 =>
    match s.stir depth with
    | .error what => .error what
    | .ok s' => s'.stirs depth n

/-- The front of a stack is rotated if it is as long as the way of the top. -/
theorem stir_append (hfront : front ≠ [])
    (hlength : front.length = sinkage { items := front ++ back } depth + 1) :
    stir { items := front ++ back } depth = .ok { items := front.rotate 1 ++ back } := by
  obtain ⟨v, others, rfl⟩ := List.exists_cons_of_ne_nil hfront
  have hway : others.length = min depth (others.length + back.length) := by
    simpa [sinkage, size] using hlength
  have hcut : (others ++ back).take depth = others ∧ (others ++ back).drop depth = back := by
    rcases Nat.le_total depth (others.length + back.length) with hle | hle
    · obtain rfl : depth = others.length := by omega
      exact ⟨List.take_left, List.drop_left⟩
    · -- the top comes to lie at the bottom
      obtain rfl : back = [] := List.length_eq_zero_iff.1 (by omega)
      rw [List.length_nil, Nat.add_zero] at hle
      rw [List.append_nil]
      exact ⟨List.take_of_length_le hle, List.drop_of_length_le hle⟩
  simp [stir, hcut, List.rotate_cons_succ]

/-- Stirring again goes on with the rotation. -/
theorem stirs_append (hfront : front ≠ [])
    (hlength : front.length = sinkage { items := front ++ back } depth + 1) (n : Nat) :
    stirs { items := front ++ back } depth n = .ok { items := front.rotate n ++ back } := by
  induction n generalizing front with
  | zero => rw [List.rotate_zero, stirs]
  | succ n ih =>
    have hstir := stir_append hfront hlength
    have hrotated : front.rotate 1 ≠ [] := mt List.rotate_eq_nil_iff.1 hfront
    have hsame : sinkage { items := front.rotate 1 ++ back } depth =
        sinkage { items := front ++ back } depth := by simp [sinkage, size]
    rw [stirs, hstir]
    simp only
    rw [ih hrotated (by rwa [List.length_rotate, hsame]), List.rotate_rotate, Nat.add_comm 1 n]

/-- A stack that is not empty is its top, the values that the top sinks through and
those that it does not reach. -/
theorem exists_front (h : s.items ≠ []) (depth : Nat) : ∃ top passed back,
    s = { items := top :: passed ++ back } ∧ passed.length = s.sinkage depth := by
  obtain ⟨items⟩ := s
  obtain ⟨top, others, rfl⟩ := List.exists_cons_of_ne_nil h
  refine ⟨top, others.take depth, others.drop depth, ?_, ?_⟩
  · rw [List.cons_append, List.take_append_drop]
  · simp [sinkage, size]

end Stack

/-- Stirring rotates the front of a stack: the top comes to lie below as many
values as the depth says, or at the bottom, the others keep their order, and what
lies below them stays where it is.  Stirring as often as the front is long puts
everything back.  Nothing can be stirred in an empty bowl, which changes nothing. -/
theorem stir_rotates (s : Stack) (depth : Nat) :
    (s.items ≠ [] → ∃ s', s.stir depth = .ok s' ∧
      s'.items = (s.items.take (s.sinkage depth + 1)).rotate 1 ++
        s.items.drop (s.sinkage depth + 1) ∧
      s'.items[s.sinkage depth]? = s.items.head? ∧
      s'.items.eraseIdx (s.sinkage depth) = s.items.tail ∧
      s'.items.Perm s.items ∧
      s'.items.drop (s.sinkage depth + 1) = s.items.drop (s.sinkage depth + 1) ∧
      s.stirs depth (s.sinkage depth + 1) = .ok s) ∧
    (s.items = [] → s.stir depth = .error .nothingToTake ∧
      ∀ (f : Frame) (i : Instruction), f.bowl i.bowl = s →
        (f.stirBy i depth).fault = some (.lacks .nothingToTake) ∧
        (∀ k, (Trial.ofAttempt (f.stirBy i depth) k).caught i.location =
          .fail (f.reachBowl i.bowl) k (.lacking i.location .nothingToTake)) ∧
        (f.stirBy i depth).frame = f.reachBowl i.bowl ∧
        ∀ n, (f.reachBowl i.bowl).bowl n = f.bowl n) := by
  constructor
  · intro hne
    obtain ⟨top, passed, back, hs, hlength⟩ := s.exists_front hne depth
    have hitems : s.items = (top :: passed) ++ back := congrArg (·.items) hs
    have hfront : (top :: passed).length =
        Stack.sinkage { items := (top :: passed) ++ back } depth + 1 := by
      rw [List.length_cons, hlength, hs]
    have htake : s.items.take (s.sinkage depth + 1) = top :: passed := by
      rw [hitems, List.take_left' (by rw [List.length_cons, hlength])]
    have hdrop : s.items.drop (s.sinkage depth + 1) = back := by
      rw [hitems, List.drop_left' (by rw [List.length_cons, hlength])]
    have hrotated : (top :: passed).rotate 1 = passed ++ [top] := by
      rw [List.rotate_cons_succ, List.rotate_zero]
    have hrestored := Stack.stirs_append (by simp) hfront (top :: passed).length
    rw [List.rotate_length, List.length_cons, hlength, ← hs] at hrestored
    refine ⟨{ items := passed ++ [top] ++ back }, ?_, ?_, ?_, ?_, ?_, ?_, hrestored⟩
    · rw [← hrotated, ← Stack.stir_append (by simp) hfront, ← hs]
    · rw [htake, hdrop, hrotated]
    · simp [← hlength, hitems]
    · simp [← hlength, hitems, List.eraseIdx_append_of_length_le]
    · rw [hitems]
      exact (List.perm_append_singleton top passed).append_right back
    · rw [hdrop, List.drop_left' (by rw [List.length_append, List.length_singleton, hlength])]
  · intro hnil
    have hstir : s.stir depth = .error .nothingToTake := by rw [Stack.stir, hnil]
    refine ⟨hstir, ?_⟩
    rintro f i rfl
    have hlacks : f.stirBy i depth = (f.reachBowl i.bowl).lacking .nothingToTake := by
      simp only [Frame.stirBy, hstir]
    rw [hlacks]
    exact ⟨rfl, fun k => rfl, rfl, fun n => f.bowl_reachBowl n i.bowl⟩

/-- Stirring four values by two places three times puts them back, and a bowl that
nothing was put into cannot be stirred. -/
theorem stir_rotates_spoons :
    let s := Stack.ofContents [{ number := 1 }, { number := 2 }, { number := 3 }, { number := 4 }]
    let f := Frame.ofRecipe { name := "Soup" }
    (∃ s', s.stir 2 = .ok s' ∧ s'.items[2]? = s.items.head? ∧ s.stirs 2 3 = .ok s) ∧
      (f.stirBy { action := .stir } 7).fault = some (.lacks .nothingToTake) := by
  intro s f
  have hway : s.sinkage 2 = 2 := rfl
  obtain ⟨s', hstir, -, hplace, -, -, -, hrestored⟩ := (stir_rotates s 2).1 (by decide)
  obtain ⟨-, hempty⟩ := (stir_rotates .empty 7).2 rfl
  rw [hway] at hplace hrestored
  exact ⟨⟨s', hstir, hplace, hrestored⟩, (hempty f { action := .stir } rfl).1⟩

end Cookbook
