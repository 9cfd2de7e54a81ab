import Cookbook.Proofs.Loops.Resolution

/-!
# Cookbook.Proofs.Cooking.Blocks

Well-nested methods as trees.  A `Block` is a run of statements in which every
loop is a statement that opens it, a block and the statement that ends it, and
things are set aside within loops only.  Written out as a method, a block has
its loops paired as the tree has them (`Block.resolve_flatten`).
-/

namespace Cookbook

/-- The two statements around the body of a loop. -/
structure LoopEnds where
  start : Instruction
  stop : Instruction
  start_action : start.action = .loopStart
  stop_action : stop.action = .loopEnd
  closing : stop.keyword = closingWord start.name

namespace LoopEnds

/-- The start of a loop with its closing word and the index of its end. -/
def startTo (ends : LoopEnds) (stop : Nat) : Instruction :=
  { ends.start with keyword := closingWord ends.start.name, target := stop }

/-- The end of a loop with the index of its start. -/
def stopTo (ends : LoopEnds) (start : Nat) : Instruction := { ends.stop with target := start }

end LoopEnds

/-- A well-nested run of statements, which may set things aside if it is the
body of a loop or a part of one. -/
inductive Block : (inLoop : Bool) → Type where
  | done : Block inLoop
  | plain (i : Instruction) (h : ¬ Loops.IsTargeted i.action) (rest : Block inLoop) : Block inLoop
  | setAside (i : Instruction) (h : i.action = .setAside) (rest : Block true) : Block true
  | loop (ends : LoopEnds) (body : Block true) (rest : Block inLoop) : Block inLoop

namespace Block

/-- The statements of a block as they are written one after the other. -/
def flatten : Block inLoop → List Instruction
  | done => []
  | plain i _ rest => i :: rest.flatten
  | setAside i _ rest => i :: rest.flatten
  | loop ends body rest => ends.start :: (body.flatten ++ ends.stop :: rest.flatten)

/-- The number of statements of a block. -/
def size (b : Block inLoop) : Nat := b.flatten.length

@[simp] theorem size_plain (i : Instruction) (h : ¬ Loops.IsTargeted i.action)
    (rest : Block inLoop) : (plain i h rest).size = rest.size + 1 := rfl

@[simp] theorem size_setAside (i : Instruction) (h : i.action = .setAside) (rest : Block true) :
    (setAside i h rest).size = rest.size + 1 := rfl

@[simp] theorem size_loop (ends : LoopEnds) (body : Block true) (rest : Block inLoop) :
    (loop ends body rest).size = body.size + rest.size + 2 := by
  simp only [size, flatten, List.length_cons, List.length_append]
  omega

/-- The statements of a block with their targets, if the first of them has the
index `n` and the loop around the block ends at `exit`. -/
def layout (exit n : Nat) : Block inLoop → List Instruction
  | done => []
  | plain i _ rest => i :: rest.layout exit (n + 1)
  | setAside i _ rest => { i with target := exit } :: rest.layout exit (n + 1)
  | loop ends body rest =>
    ends.startTo (n + 1 + body.size) ::
      (body.layout (n + 1 + body.size) (n + 1) ++
        ends.stopTo n :: rest.layout exit (n + 1 + body.size + 1))

theorem length_layout (b : Block inLoop) (exit n : Nat) : (b.layout exit n).length = b.size := by
  induction b generalizing exit n with
  | done => rfl
  | plain i h rest ih | setAside i h rest ih => simp [layout, ih]
  | loop ends body rest ihbody ihrest =>
    simp [layout, ihbody, ihrest]
    omega

/-! ## The loops of a block -/

/-- Whether the loops of a block are known, if its first statement has the index
`n` and the loop around it starts at `s`. -/
def Known (l : Loops) (s n : Nat) : Block inLoop → Prop
  | done => True
  | plain _ _ rest => rest.Known l s (n + 1)
  | setAside _ _ rest => (n, s) ∈ l.exits ∧ rest.Known l s (n + 1)
  | loop _ body rest =>
    (n, n + 1 + body.size) ∈ l.pairs ∧ body.Known l n (n + 1) ∧
      rest.Known l s (n + 1 + body.size + 1)

theorem Known.mono {l l' : Loops} {s n : Nat} {b : Block inLoop} (h : b.Known l s n)
    (hpairs : l.pairs ⊆ l'.pairs) (hexits : l.exits ⊆ l'.exits) : b.Known l' s n := by
  induction b generalizing s n with
  | done => trivial
  | plain i ha rest ih => exact ih h
  | setAside i ha rest ih => exact ⟨hexits h.1, ih h.2⟩
  | loop ends body rest ihbody ihrest =>
    obtain ⟨hpair, hbody, hrest⟩ := h
    exact ⟨hpairs hpair, ihbody hbody, ihrest hrest⟩

theorem note_of_plain {l : Loops} {n : Nat} {i : Instruction} (h : ¬ Loops.IsTargeted i.action) :
    l.note n i = .ok l := by
  simp only [Loops.IsTargeted, not_or] at h
  exact Loops.note_of_other h.1 h.2.1 h.2.2

/-- The end of a loop is paired with the start in front. -/
theorem note_stop (ends : LoopEnds) {l : Loops} {o : Loops.Opening} {below : List Loops.Opening}
    (n : Nat) (hpending : l.pending = o :: below)
    (hkey : o.start.keyword = closingWord ends.start.name) :
    l.note n ends.stop = .ok { l with pending := below, pairs := (o.index, n) :: l.pairs } := by
  have hfound : decide (o.start.keyword = ends.stop.keyword) = true := by
    simp [hkey, ends.closing]
  have hfind : l.pending.find? (fun o => o.start.keyword = ends.stop.keyword) = some o := by
    rw [hpending, List.find?_cons, hfound]
  rw [Loops.note_of_loopEnd ends.stop_action hfind, hpending, List.eraseP_cons, hfound, cond_true]

/-- Noting the statements of a block leaves the open loops as they were. -/
theorem exists_noteAll_flatten (b : Block inLoop) (l : Loops) (s n : Nat)
    (hin : inLoop = true → ∃ o below, l.pending = o :: below ∧ o.index = s) :
    ∃ l', l.noteAll n b.flatten = .ok l' ∧ l'.pending = l.pending ∧ l.pairs ⊆ l'.pairs ∧
      l.exits ⊆ l'.exits ∧ b.Known l' s n := by
  induction b generalizing l s n with
  | done => exact ⟨l, rfl, rfl, List.Subset.refl _, List.Subset.refl _, trivial⟩
  | plain i h rest ih =>
    obtain ⟨l', hnote, hrest⟩ := ih l s (n + 1) hin
    exact ⟨l', by rw [flatten, Loops.noteAll, note_of_plain h]; exact hnote, hrest⟩
  | setAside i h rest ih =>
    obtain ⟨o, below, hpending, rfl⟩ := hin rfl
    have hfirst : l.note n i = .ok { l with exits := (n, o.index) :: l.exits } :=
      Loops.note_of_setAside h hpending
    obtain ⟨l', hnote, hp, hpairs, hexits, hknown⟩ :=
      ih { l with exits := (n, o.index) :: l.exits } o.index (n + 1)
        fun _ => ⟨o, below, hpending, rfl⟩
    refine ⟨l', ?_, hp, hpairs, List.Subset.trans (List.subset_cons_self _ _) hexits,
      hexits List.mem_cons_self, hknown⟩
    rw [flatten, Loops.noteAll, hfirst]
    exact hnote
  | loop ends body rest ihbody ihrest =>
    obtain ⟨l₁, hbody, hp₁, hpairs₁, hexits₁, hknown₁⟩ :=
      ihbody { l with
        pending :=
          { index := n, start := { ends.start with keyword := closingWord ends.start.name } } ::
            l.pending } n (n + 1) fun _ => ⟨_, _, rfl, rfl⟩
    have hstop := note_stop ends (n + 1 + body.size) hp₁ rfl
    obtain ⟨l₂, hrest, hp₂, hpairs₂, hexits₂, hknown₂⟩ :=
      ihrest { l₁ with pending := l.pending, pairs := (n, n + 1 + body.size) :: l₁.pairs } s
        (n + 1 + body.size + 1) hin
    have hgrow : l₁.pairs ⊆ l₂.pairs := List.Subset.trans (List.subset_cons_self _ _) hpairs₂
    refine ⟨l₂, ?_, hp₂, List.Subset.trans hpairs₁ hgrow, List.Subset.trans hexits₁ hexits₂,
      hpairs₂ List.mem_cons_self, hknown₁.mono hgrow hexits₂, hknown₂⟩
    rw [flatten, Loops.noteAll, Loops.note_of_loopStart ends.start_action]
    simp only [Loops.noteAll_append, hbody, Loops.noteAll]
    rw [← size, hstop]
    exact hrest

/-! ## The layout of a block -/

theorem connectFrom_cons (l : Loops) (n : Nat) (i : Instruction) (q : List Instruction) :
    (i :: q).mapIdx (fun j => l.connect (n + j)) =
      l.connect n i :: q.mapIdx (fun j => l.connect (n + 1 + j)) := by
  simp only [List.mapIdx_cons, Nat.add_zero, Nat.add_assoc, Nat.add_comm 1]

theorem connectFrom_append (l : Loops) (n : Nat) (p q : List Instruction) :
    (p ++ q).mapIdx (fun j => l.connect (n + j)) =
      p.mapIdx (fun j => l.connect (n + j)) ++
        q.mapIdx (fun j => l.connect (n + p.length + j)) := by
  simp only [List.mapIdx_append, Nat.add_assoc, Nat.add_comm p.length]

/-- Filling in the targets of a block whose loops are known lays it out. -/
theorem Known.mapIdx_connect {p : List Instruction} {l : Loops} (ht : l.Tracks p)
    (hl : l.Leaves p) {b : Block inLoop} {s exit n : Nat} (h : b.Known l s n)
    (hin : inLoop = true → (s, exit) ∈ l.pairs) :
    b.flatten.mapIdx (fun j => l.connect (n + j)) = b.layout exit n := by
  induction b generalizing s exit n with
  | done => rfl
  | plain i ha rest ih =>
    rw [flatten, connectFrom_cons, Loops.connect_of_not_targeted ha, ih h hin, layout]
  | setAside i ha rest ih =>
    have hleft : l.connect n i = { i with target := exit } := by
      simp only [Loops.connect, ha, hl.leftAt_eq h.1, ht.endOf_eq (hin rfl)]
    rw [flatten, connectFrom_cons, hleft, ih h.2 hin, layout]
  | loop ends body rest ihbody ihrest =>
    obtain ⟨hpair, hbody, hrest⟩ := h
    have hstart : l.connect n ends.start = ends.startTo (n + 1 + body.size) := by
      simp only [Loops.connect, ends.start_action, ht.endOf_eq hpair, LoopEnds.startTo]
    have hstop : l.connect (n + 1 + body.size) ends.stop = ends.stopTo n := by
      simp only [Loops.connect, ends.stop_action, ht.startOf_eq hpair, LoopEnds.stopTo]
    rw [flatten, connectFrom_cons, connectFrom_append, connectFrom_cons, ← size, hstart, hstop,
      ihbody hbody fun _ => hpair, ihrest hrest hin, layout]

/-- The loops of a block that stands in no loop are paired as the tree has
them. -/
theorem resolve_flatten (b : Block false) : Loops.resolve b.flatten = .ok (b.layout 0 0) := by
  obtain ⟨l, hnote, hpending, -, -, hknown⟩ := b.exists_noteAll_flatten {} 0 0 (by simp)
  obtain ⟨ht, hl, -⟩ := Loops.tracks_noteAll hnote
  have hmap : b.flatten.mapIdx (fun j => l.connect (0 + j)) = b.layout 0 0 :=
    hknown.mapIdx_connect ht hl (by simp)
  simp only [Nat.zero_add] at hmap
  rw [Loops.resolve, Loops.ofMethod_eq_ok_iff.2 ⟨hnote, hpending⟩, ← hmap]

/-- Statements that are none of a loop are a block, and laid out as they are. -/
theorem exists_flatten_of_plain {is : List Instruction}
    (h : ∀ i ∈ is, ¬ Loops.IsTargeted i.action) :
    ∃ b : Block inLoop, b.flatten = is ∧ ∀ exit n, b.layout exit n = is := by
  induction is with
  | nil => exact ⟨done, rfl, fun _ _ => rfl⟩
  | cons i is ih =>
    rw [List.forall_mem_cons] at h
    obtain ⟨b, hflatten, hlayout⟩ := ih h.2
    exact ⟨plain i h.1 b, by rw [flatten, hflatten], fun exit n => by rw [layout, hlayout]⟩

/-- A method without loops has nothing to be paired. -/
theorem resolve_of_plain {is : List Instruction} (h : ∀ i ∈ is, ¬ Loops.IsTargeted i.action) :
    Loops.resolve is = .ok is := by
  obtain ⟨b, hflatten, hlayout⟩ := exists_flatten_of_plain h
  rw [← hflatten, resolve_flatten, hlayout, hflatten]

end Block

end Cookbook
