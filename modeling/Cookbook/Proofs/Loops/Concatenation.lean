import Cookbook.Proofs.Loops.Resolution

/-!
# Cookbook.Proofs.Loops.Concatenation

Pairing the loops of two methods one behind the other.  If the loops of both
can be paired, nothing is open at the seam, so what is noted behind it is what
the second method alone has noted, counted on from the length of the first
(`noteAll_behind`).  The paired methods then stand one behind the other, and
only the targets of the second are moved (`resolve_append`).
-/

namespace Cookbook

/-- The same statement with its target moved on by `n`, if it has one. -/
def Instruction.retarget (n : Nat) (i : Instruction) : Instruction :=
  match i.action with
  | .loopStart | .loopEnd | .setAside => { i with target := i.target + n }
  | _ => i

section

variable {n : Nat} {i : Instruction}

theorem Instruction.retarget_of_targeted (h : Loops.IsTargeted i.action) :
    i.retarget n = { i with target := i.target + n } := by
  rcases h with h | h | h <;> simp only [retarget, h]

theorem Instruction.retarget_of_not_targeted (h : ¬ Loops.IsTargeted i.action) :
    i.retarget n = i := by
  unfold retarget
  cases ha : i.action <;> simp [Loops.IsTargeted, ha] at h ⊢

@[simp] theorem Instruction.retarget_zero : Instruction.retarget 0 = id := by
  funext i
  unfold retarget
  split <;> rfl

end

namespace Loops

/-- The same loop of a method that stands behind `n` other statements. -/
def Opening.behind (n : Nat) (o : Opening) : Opening := { o with index := n + o.index }

/-- What is known of a method that stands behind `n` statements of whose loops
`base` is known. -/
def behind (base : Loops) (n : Nat) (l : Loops) : Loops where
  pending := l.pending.map (Opening.behind n)
  pairs := l.pairs.map (Prod.map (n + ·) (n + ·)) ++ base.pairs
  exits := l.exits.map (Prod.map (n + ·) (n + ·)) ++ base.exits

section

variable {base l : Loops} {n j : Nat} {i : Instruction}

/-- Behind other statements the same loop is found by its closing word. -/
theorem find?_pending_behind (k : Text) :
    (base.behind n l).pending.find? (fun o => o.start.keyword = k) =
      (l.pending.find? fun o => o.start.keyword = k).map (Opening.behind n) := List.find?_map

theorem eraseP_pending_behind (k : Text) :
    (base.behind n l).pending.eraseP (fun o => o.start.keyword = k) =
      (l.pending.eraseP fun o => o.start.keyword = k).map (Opening.behind n) := List.eraseP_map

/-- A statement is noted behind others as it is noted alone. -/
theorem note_behind :
    (base.behind n l).note (n + j) i = (l.note j i).map (base.behind n) := by
  unfold note
  cases ha : i.action with
  | loopEnd =>
    simp only [find?_pending_behind, eraseP_pending_behind]
    cases l.pending.find? fun o => o.start.keyword = i.keyword <;> rfl
  | setAside =>
    cases hpending : l.pending <;> simp only [behind, hpending] <;> rfl
  | _ => rfl

theorem noteAll_behind (base l : Loops) (n j : Nat) (is : List Instruction) :
    (base.behind n l).noteAll (n + j) is = (l.noteAll j is).map (base.behind n) := by
  induction is generalizing l j with
  | nil => rfl
  | cons i is ih =>
    rw [noteAll, noteAll, note_behind]
    cases l.note j i with
    | error cause => rfl
    | ok m => exact ih m (j + 1)

end

/-- The loops of two methods one behind the other. -/
theorem ofMethod_append {a b : List Instruction} {la lb : Loops} (ha : ofMethod a = .ok la)
    (hb : ofMethod b = .ok lb) : ofMethod (a ++ b) = .ok (la.behind a.length lb) := by
  obtain ⟨hnotea, hpendinga⟩ := ofMethod_eq_ok_iff.1 ha
  obtain ⟨hnoteb, hpendingb⟩ := ofMethod_eq_ok_iff.1 hb
  -- at the seam no loop is open
  have hseam : la.behind a.length {} = la := by
    cases la
    simp_all [behind]
  have hrest : la.noteAll (0 + a.length) b = .ok (la.behind a.length lb) := by
    have hbehind := noteAll_behind la {} a.length 0 b
    rw [hseam, hnoteb] at hbehind
    rw [Nat.zero_add]
    exact hbehind
  refine ofMethod_eq_ok_iff.2 ⟨?_, ?_⟩
  · rw [noteAll_append, hnotea]
    exact hrest
  · simp [behind, hpendingb]

/-! ## Targets -/

/-- A statement is given the same target, moved on by `n`, by all that knows its
loop `n` statements further on. -/
theorem connect_eq_retarget {m m' : List Instruction} {l l' : Loops} {n j : Nat} {i : Instruction}
    (ht : Tracks m l) (hl : Leaves m l) (hp : l.pending = []) (ht' : Tracks m' l')
    (hl' : Leaves m' l') (hpairs : ∀ s e, (s, e) ∈ l.pairs → (n + s, n + e) ∈ l'.pairs)
    (hexits : ∀ b s, (b, s) ∈ l.exits → (n + b, n + s) ∈ l'.exits) (hi : m[j]? = some i) :
    l'.connect (n + j) i = (l.connect j i).retarget n := by
  have hstands : StandsAt (m.mapIdx l.connect) j i.action (l.connect j i) :=
    ⟨getElem?_connect_iff.2 ⟨i, hi, rfl⟩, action_connect l j i⟩
  by_cases ha : IsTargeted i.action
  · rw [Instruction.retarget_of_targeted (by rwa [action_connect])]
    rcases ha with ha | ha | ha <;> rw [ha] at hstands
    · have hpair := hpairs _ _ (pair_of_start ht hp hstands).1
      simp only [connect, ha] at hpair ⊢
      rw [ht'.endOf_eq hpair, Nat.add_comm]
    · have hpair := hpairs _ _ (pair_of_end ht hstands).1
      simp only [connect, ha] at hpair ⊢
      rw [ht'.startOf_eq hpair, Nat.add_comm]
    · obtain ⟨s, hexit, hpair, -⟩ := exit_of_setAside ht hl hp hstands
      have hexit' := hexits _ _ hexit
      have hpair' := hpairs _ _ hpair
      simp only [connect, ha] at hpair' ⊢
      rw [hl'.leftAt_eq hexit', ht'.endOf_eq hpair', Nat.add_comm]
  · rw [connect_of_not_targeted ha, connect_of_not_targeted ha,
      Instruction.retarget_of_not_targeted ha]

/-- The same holds for all statements of a method. -/
theorem mapIdx_connect_eq {m m' : List Instruction} {l l' : Loops} {n : Nat} (ht : Tracks m l)
    (hl : Leaves m l) (hp : l.pending = []) (ht' : Tracks m' l') (hl' : Leaves m' l')
    (hpairs : ∀ s e, (s, e) ∈ l.pairs → (n + s, n + e) ∈ l'.pairs)
    (hexits : ∀ b s, (b, s) ∈ l.exits → (n + b, n + s) ∈ l'.exits) :
    m.mapIdx (fun j => l'.connect (n + j)) =
      (m.mapIdx l.connect).map (Instruction.retarget n) := by
  apply List.ext_getElem?
  intro j
  rw [List.getElem?_map, List.getElem?_mapIdx, List.getElem?_mapIdx]
  cases hi : m[j]? with
  | none => rfl
  | some i =>
    exact congrArg some (connect_eq_retarget ht hl hp ht' hl' hpairs hexits hi)

/-- The loops of two methods are paired one behind the other as they are paired
alone. -/
theorem resolve_append {a b a' b' : List Instruction} (ha : resolve a = .ok a')
    (hb : resolve b = .ok b') :
    resolve (a ++ b) = .ok (a' ++ b'.map (Instruction.retarget a.length)) := by
  obtain ⟨la, hla, rfl⟩ := resolve_eq_ok_iff.1 ha
  obtain ⟨lb, hlb, rfl⟩ := resolve_eq_ok_iff.1 hb
  have hwhole := ofMethod_append hla hlb
  obtain ⟨hnotea, hpendinga⟩ := ofMethod_eq_ok_iff.1 hla
  obtain ⟨hnoteb, hpendingb⟩ := ofMethod_eq_ok_iff.1 hlb
  obtain ⟨hta, hleavesa, -⟩ := tracks_noteAll hnotea
  obtain ⟨htb, hleavesb, -⟩ := tracks_noteAll hnoteb
  obtain ⟨ht, hleaves, -⟩ := tracks_noteAll (ofMethod_eq_ok_iff.1 hwhole).1
  have hfirst : a.mapIdx (fun j => (la.behind a.length lb).connect (0 + j)) =
      (a.mapIdx la.connect).map (Instruction.retarget 0) :=
    mapIdx_connect_eq hta hleavesa hpendinga ht hleaves
      (fun s e h => by simp [behind, h]) (fun b s h => by simp [behind, h])
  have hsecond : b.mapIdx (fun j => (la.behind a.length lb).connect (a.length + j)) =
      (b.mapIdx lb.connect).map (Instruction.retarget a.length) :=
    mapIdx_connect_eq htb hleavesb hpendingb ht hleaves
      (fun s e h => List.mem_append_left _ (List.mem_map_of_mem h))
      (fun b s h => List.mem_append_left _ (List.mem_map_of_mem h))
  refine resolve_eq_ok_iff.2 ⟨_, hwhole, ?_⟩
  rw [List.mapIdx_append, ← hsecond]
  simp only [Nat.zero_add, Instruction.retarget_zero, List.map_id] at hfirst
  simp only [hfirst, Nat.add_comm]

end Loops

end Cookbook
