import Cookbook.Loops
import Mathlib.Data.List.Induction

/-!
# Cookbook.Proofs.Loops.Pairing

What is known of the loops of a method while its statements are noted one after
the other.  `Loops.Tracks p l` says that `l` knows the loops of the statements
`p` seen so far: every start is open or paired, every end is paired, loops of
one closing word do not cross, and something that is set aside leaves the last
loop that was open there.  Taking note of one more statement keeps this
(`Tracks.note`), so it holds after any number of them (`tracks_noteAll`).
-/

namespace Cookbook

/-! ## Statements of loops -/

namespace Instruction

/-- Whether a statement opens a loop with the given closing word. -/
def opens (k : Text) (i : Instruction) : Bool := i.action = .loopStart && closingWord i.name = k

/-- Whether a statement ends a loop with the given closing word. -/
def closes (k : Text) (i : Instruction) : Bool := i.action = .loopEnd && i.keyword = k

theorem opens_iff {k : Text} {i : Instruction} :
    i.opens k ↔ i.action = .loopStart ∧ closingWord i.name = k := by
  simp [opens]

theorem closes_iff {k : Text} {i : Instruction} :
    i.closes k ↔ i.action = .loopEnd ∧ i.keyword = k := by
  simp [closes]

end Instruction

namespace Loops

/-- Whether the statement with the given index opens a loop with the given
closing word. -/
def OpensAt (p : List Instruction) (k : Text) (n : Nat) : Prop := ∃ i, p[n]? = some i ∧ i.opens k

/-- Whether the statement with the given index ends such a loop. -/
def ClosesAt (p : List Instruction) (k : Text) (n : Nat) : Prop := ∃ i, p[n]? = some i ∧ i.closes k

/-- Whether something is set aside at an index. -/
def LeavesAt (p : List Instruction) (n : Nat) : Prop :=
  ∃ i, p[n]? = some i ∧ i.action = .setAside

section

variable {p : List Instruction} {i : Instruction} {k k' : Text} {n : Nat}

theorem exists_getElem?_concat_iff {P : Instruction → Prop} :
    (∃ j, (p ++ [i])[n]? = some j ∧ P j) ↔ (∃ j, p[n]? = some j ∧ P j) ∨ n = p.length ∧ P i := by
  rcases Nat.lt_trichotomy n p.length with h | rfl | h
  · rw [List.getElem?_append_left h]
    simp [Nat.ne_of_lt h]
  · simp
  · have hnone : p[n]? = none := List.getElem?_eq_none (Nat.le_of_lt h)
    have hnone' : (p ++ [i])[n]? = none := List.getElem?_eq_none (by simp; omega)
    simp [hnone, hnone', Nat.ne_of_gt h]

theorem opensAt_concat_iff :
    OpensAt (p ++ [i]) k n ↔ OpensAt p k n ∨ n = p.length ∧ i.opens k :=
  exists_getElem?_concat_iff

theorem closesAt_concat_iff :
    ClosesAt (p ++ [i]) k n ↔ ClosesAt p k n ∨ n = p.length ∧ i.closes k :=
  exists_getElem?_concat_iff

theorem leavesAt_concat_iff :
    LeavesAt (p ++ [i]) n ↔ LeavesAt p n ∨ n = p.length ∧ i.action = .setAside :=
  exists_getElem?_concat_iff

theorem OpensAt.lt (h : OpensAt p k n) : n < p.length := by
  obtain ⟨i, hi, -⟩ := h
  exact (List.getElem?_eq_some_iff.1 hi).1

theorem ClosesAt.lt (h : ClosesAt p k n) : n < p.length := by
  obtain ⟨i, hi, -⟩ := h
  exact (List.getElem?_eq_some_iff.1 hi).1

theorem LeavesAt.lt (h : LeavesAt p n) : n < p.length := by
  obtain ⟨i, hi, -⟩ := h
  exact (List.getElem?_eq_some_iff.1 hi).1

theorem OpensAt.concat (h : OpensAt p k n) : OpensAt (p ++ [i]) k n :=
  opensAt_concat_iff.2 (.inl h)

theorem ClosesAt.concat (h : ClosesAt p k n) : ClosesAt (p ++ [i]) k n :=
  closesAt_concat_iff.2 (.inl h)

theorem OpensAt.of_concat (h : OpensAt (p ++ [i]) k n) (hn : n < p.length) : OpensAt p k n :=
  (opensAt_concat_iff.1 h).resolve_right fun hlast => absurd hlast.1 (Nat.ne_of_lt hn)

/-- A start has one closing word. -/
theorem OpensAt.unique (h : OpensAt p k n) (h' : OpensAt p k' n) : k = k' := by
  obtain ⟨i, hi, ho⟩ := h
  obtain ⟨j, hj, ho'⟩ := h'
  rw [hi, Option.some.injEq] at hj
  subst hj
  rw [Instruction.opens_iff] at ho ho'
  rw [← ho.2, ho'.2]

end

/-! ## What noting a statement does -/

section

variable {l l' : Loops} {n : Nat} {i : Instruction}

/-- Noting a statement succeeds in one of four ways. -/
theorem note_cases (h : l.note n i = .ok l') :
    (i.action = .loopStart ∧
      l' = { l with pending := ⟨n, { i with keyword := closingWord i.name }⟩ :: l.pending }) ∨
    (∃ above o below, i.action = .loopEnd ∧ l.pending = above ++ o :: below ∧
      o.start.keyword = i.keyword ∧ (∀ o' ∈ above, o'.start.keyword ≠ i.keyword) ∧
      l' = { l with pending := above ++ below, pairs := (o.index, n) :: l.pairs }) ∨
    (∃ o below, i.action = .setAside ∧ l.pending = o :: below ∧
      l' = { l with exits := (n, o.index) :: l.exits }) ∨
    (i.action ≠ .loopStart ∧ i.action ≠ .loopEnd ∧ i.action ≠ .setAside ∧ l' = l) := by
  rw [note] at h
  split at h
  · next ha =>
    cases h
    exact .inl ⟨ha, rfl⟩
  · next ha =>
    split at h
    · cases h
    · next o ho =>
      cases h
      obtain ⟨hkey, above, below, hpending, habove⟩ := List.find?_eq_some_iff_append.1 ho
      have hne : ∀ o' ∈ above, o'.start.keyword ≠ i.keyword := by simpa using habove
      refine .inr (.inl ⟨above, o, below, ha, hpending, by simpa using hkey, hne, ?_⟩)
      have herase : (above ++ o :: below).eraseP (fun o => o.start.keyword = i.keyword) =
          above ++ below := by
        rw [List.eraseP_append_right _ (by simpa using hne), List.eraseP_cons, hkey]
        rfl
      rw [hpending, herase]
  · next ha =>
    split at h
    · cases h
    · next o below hpending =>
      cases h
      exact .inr (.inr (.inl ⟨o, below, ha, hpending, rfl⟩))
  · next h1 h2 h3 =>
    cases h
    exact .inr (.inr (.inr ⟨h1, h2, h3, rfl⟩))

end

section

variable {l : Loops} {n : Nat} {i : Instruction}

theorem note_of_loopStart (ha : i.action = .loopStart) :
    l.note n i = .ok { l with
      pending :=
        { index := n, start := { i with keyword := closingWord i.name } } :: l.pending } := by
  simp only [note, ha]

theorem note_of_loopEnd {o : Opening} (ha : i.action = .loopEnd)
    (ho : l.pending.find? (fun o => o.start.keyword = i.keyword) = some o) :
    l.note n i = .ok { l with
      pending := l.pending.eraseP fun o => o.start.keyword = i.keyword
      pairs := (o.index, n) :: l.pairs } := by
  simp only [note, ha, ho]

theorem note_of_setAside {o : Opening} {below : List Opening} (ha : i.action = .setAside)
    (hpending : l.pending = o :: below) :
    l.note n i = .ok { l with exits := (n, o.index) :: l.exits } := by
  simp only [note, ha, hpending]

theorem note_of_other (hstart : i.action ≠ .loopStart) (hend : i.action ≠ .loopEnd)
    (haside : i.action ≠ .setAside) : l.note n i = .ok l := by
  unfold note
  cases ha : i.action <;> simp_all

end

/-! ## Open and paired loops -/

/-- Some loops are those of the statements seen so far: every start is open or
paired, every end is paired with a start before it, and no loop crosses another
with the same closing word. -/
structure Tracks (p : List Instruction) (l : Loops) : Prop where
  opened : ∀ o ∈ l.pending, OpensAt p o.start.keyword o.index
  decreasing : l.pending.Pairwise fun o o' => o'.index < o.index
  paired : ∀ s e, (s, e) ∈ l.pairs → s < e ∧ ∃ k, OpensAt p k s ∧ ClosesAt p k e
  unpaired : ∀ o ∈ l.pending, ∀ e, (o.index, e) ∉ l.pairs
  end_unique : ∀ s e e', (s, e) ∈ l.pairs → (s, e') ∈ l.pairs → e = e'
  start_unique : ∀ s s' e, (s, e) ∈ l.pairs → (s', e) ∈ l.pairs → s = s'
  start_known : ∀ k s, OpensAt p k s → (∃ o ∈ l.pending, o.index = s) ∨ ∃ e, (s, e) ∈ l.pairs
  end_known : ∀ k e, ClosesAt p k e → ∃ s, (s, e) ∈ l.pairs
  /-- An open loop lies inside or behind those that are closed by the same
  word. -/
  apart : ∀ o ∈ l.pending, ∀ s e, (s, e) ∈ l.pairs → OpensAt p o.start.keyword s →
    o.index < s ∨ e < o.index
  nested : ∀ k s e s' e', (s, e) ∈ l.pairs → (s', e') ∈ l.pairs → OpensAt p k s → OpensAt p k s' →
    s < s' → e < s' ∨ e' < e

namespace Tracks

variable {p : List Instruction} {l : Loops} {i : Instruction}

theorem nil : Tracks [] {} where
  opened := by simp
  decreasing := .nil
  paired := by simp
  unpaired := by simp
  end_unique := by simp
  start_unique := by simp
  start_known := by simp [OpensAt]
  end_known := by simp [ClosesAt]
  apart := by simp
  nested := by simp

theorem pair_lt (h : Tracks p l) {s e : Nat} (hp : (s, e) ∈ l.pairs) : e < p.length := by
  obtain ⟨-, k, -, he⟩ := h.paired s e hp
  exact he.lt

theorem loopStart (h : Tracks p l) (ha : i.action = .loopStart) :
    Tracks (p ++ [i])
      { l with pending := ⟨p.length, { i with keyword := closingWord i.name }⟩ :: l.pending } where
  opened := by
    refine List.forall_mem_cons.2 ⟨?_, fun o ho => (h.opened o ho).concat⟩
    exact opensAt_concat_iff.2 (.inr ⟨rfl, Instruction.opens_iff.2 ⟨ha, rfl⟩⟩)
  decreasing := List.pairwise_cons.2 ⟨fun o ho => (h.opened o ho).lt, h.decreasing⟩
  paired s e hp := by
    obtain ⟨hlt, k, hs, he⟩ := h.paired s e hp
    exact ⟨hlt, k, hs.concat, he.concat⟩
  unpaired := by
    refine List.forall_mem_cons.2 ⟨fun e hp => ?_, h.unpaired⟩
    have hlt := h.pair_lt hp
    have hle := (h.paired _ e hp).1
    simp only at hle
    omega
  end_unique := h.end_unique
  start_unique := h.start_unique
  start_known k s hs := by
    rcases opensAt_concat_iff.1 hs with hs | ⟨rfl, -⟩
    · rcases h.start_known k s hs with ⟨o, ho, rfl⟩ | hpair
      · exact .inl ⟨o, List.mem_cons_of_mem _ ho, rfl⟩
      · exact .inr hpair
    · exact .inl ⟨_, List.mem_cons_self, rfl⟩
  end_known k e he := by
    rcases closesAt_concat_iff.1 he with he | ⟨-, hc⟩
    · exact h.end_known k e he
    · simp [Instruction.closes, ha] at hc
  apart := by
    refine List.forall_mem_cons.2 ⟨fun s e hp _ => .inr (h.pair_lt hp), fun o ho s e hp hs => ?_⟩
    exact h.apart o ho s e hp (hs.of_concat (Nat.lt_trans (h.paired s e hp).1 (h.pair_lt hp)))
  nested k s e s' e' hp hp' hs hs' hlt := by
    have hbound := Nat.lt_trans (h.paired s e hp).1 (h.pair_lt hp)
    have hbound' := Nat.lt_trans (h.paired s' e' hp').1 (h.pair_lt hp')
    exact h.nested k s e s' e' hp hp' (hs.of_concat hbound) (hs'.of_concat hbound') hlt

theorem loopEnd (h : Tracks p l) (ha : i.action = .loopEnd) {above below : List Opening}
    {o : Opening} (hpending : l.pending = above ++ o :: below)
    (hkey : o.start.keyword = i.keyword) (habove : ∀ o' ∈ above, o'.start.keyword ≠ i.keyword) :
    Tracks (p ++ [i])
      { l with pending := above ++ below, pairs := (o.index, p.length) :: l.pairs } := by
  have ho : o ∈ l.pending := by simp [hpending]
  have hsub : ∀ o' ∈ above ++ below, o' ∈ l.pending := by grind
  have hopen (k : Text) (n : Nat) (hn : OpensAt (p ++ [i]) k n) : OpensAt p k n :=
    (opensAt_concat_iff.1 hn).resolve_right fun hlast => by simp [Instruction.opens, ha] at hlast
  have hdec := h.decreasing
  rw [hpending, List.pairwise_append, List.pairwise_cons] at hdec
  obtain ⟨hdabove, ⟨hdo, hdbelow⟩, hdcross⟩ := hdec
  have hne : ∀ o' ∈ above ++ below, o'.index ≠ o.index := by
    intro o' ho'
    rcases List.mem_append.1 ho' with ho' | ho'
    · exact Nat.ne_of_gt (hdcross o' ho' o (by simp))
    · exact Nat.ne_of_lt (hdo o' ho')
  -- the loop that is ended was opened last of those with its closing word
  have hlast : ∀ o' ∈ above ++ below, o'.start.keyword = i.keyword → o'.index < o.index := by
    intro o' ho' hkey'
    rcases List.mem_append.1 ho' with ho' | ho'
    · exact absurd hkey' (habove o' ho')
    · exact hdo o' ho'
  refine ⟨?_, ?_, ?_, ?_, ?_, ?_, ?_, ?_, ?_, ?_⟩
  · exact fun o' ho' => (h.opened o' (hsub o' ho')).concat
  · exact List.pairwise_append.2
      ⟨hdabove, hdbelow, fun a ha b hb => hdcross a ha b (List.mem_cons_of_mem _ hb)⟩
  · intro s e hp
    rcases List.mem_cons.1 hp with hp | hp
    · obtain ⟨rfl, rfl⟩ := Prod.mk.inj hp
      refine ⟨(h.opened o ho).lt, i.keyword, hkey ▸ (h.opened o ho).concat, ?_⟩
      exact closesAt_concat_iff.2 (.inr ⟨rfl, Instruction.closes_iff.2 ⟨ha, rfl⟩⟩)
    · obtain ⟨hlt, k, hs, he⟩ := h.paired s e hp
      exact ⟨hlt, k, hs.concat, he.concat⟩
  · intro o' ho' e hp
    rcases List.mem_cons.1 hp with hp | hp
    · exact hne o' ho' (Prod.mk.inj hp).1
    · exact h.unpaired o' (hsub o' ho') e hp
  · intro s e e' hp hp'
    rcases List.mem_cons.1 hp with hp | hp <;> rcases List.mem_cons.1 hp' with hp' | hp'
    · rw [(Prod.mk.inj hp).2, (Prod.mk.inj hp').2]
    · exact absurd hp' ((Prod.mk.inj hp).1 ▸ h.unpaired o ho e')
    · exact absurd hp ((Prod.mk.inj hp').1 ▸ h.unpaired o ho e)
    · exact h.end_unique s e e' hp hp'
  · intro s s' e hp hp'
    rcases List.mem_cons.1 hp with hp | hp <;> rcases List.mem_cons.1 hp' with hp' | hp'
    · rw [(Prod.mk.inj hp).1, (Prod.mk.inj hp').1]
    · exact absurd (Prod.mk.inj hp).2 (Nat.ne_of_lt (h.pair_lt hp'))
    · exact absurd (Prod.mk.inj hp').2 (Nat.ne_of_lt (h.pair_lt hp))
    · exact h.start_unique s s' e hp hp'
  · intro k s hs
    rcases h.start_known k s (hopen k s hs) with ⟨o', ho', rfl⟩ | ⟨e, hp⟩
    · by_cases heq : o' = o
      · exact .inr ⟨p.length, by simp [heq]⟩
      · rw [hpending, List.mem_append, List.mem_cons] at ho'
        refine .inl ⟨o', List.mem_append.2 ?_, rfl⟩
        exact ho'.imp_right fun hor => hor.resolve_left heq
    · exact .inr ⟨e, List.mem_cons_of_mem _ hp⟩
  · intro k e he
    rcases closesAt_concat_iff.1 he with he | ⟨rfl, -⟩
    · obtain ⟨s, hp⟩ := h.end_known k e he
      exact ⟨s, List.mem_cons_of_mem _ hp⟩
    · exact ⟨o.index, List.mem_cons_self⟩
  · intro o' ho' s e hp hs
    rcases List.mem_cons.1 hp with hp | hp
    · obtain ⟨rfl, rfl⟩ := Prod.mk.inj hp
      have hk := (hopen _ _ hs).unique (h.opened o ho)
      exact .inl (hlast o' ho' (hk.trans hkey))
    · exact h.apart o' (hsub o' ho') s e hp (hopen _ _ hs)
  · intro k s e s' e' hp hp' hs hs' hlt
    rcases List.mem_cons.1 hp with hp | hp <;> rcases List.mem_cons.1 hp' with hp' | hp'
    · obtain ⟨rfl, rfl⟩ := Prod.mk.inj hp
      exact absurd (Prod.mk.inj hp').1 (Nat.ne_of_gt hlt)
    · -- a loop that began later has ended before
      obtain ⟨rfl, rfl⟩ := Prod.mk.inj hp
      exact .inr (h.pair_lt hp')
    · obtain ⟨rfl, rfl⟩ := Prod.mk.inj hp'
      have hk := (hopen _ _ hs').unique (h.opened o ho)
      rcases h.apart o ho s e hp (hk ▸ hopen _ _ hs) with hcase | hcase
      · omega
      · exact .inl hcase
    · exact h.nested k s e s' e' hp hp' (hopen _ _ hs) (hopen _ _ hs') hlt

/-- A statement that neither opens nor ends a loop changes no loop. -/
theorem other (h : Tracks p l) (hs : i.action ≠ .loopStart) (he : i.action ≠ .loopEnd)
    (exits : List (Nat × Nat)) : Tracks (p ++ [i]) { l with exits := exits } := by
  have hopen (k : Text) (n : Nat) : OpensAt (p ++ [i]) k n ↔ OpensAt p k n := by
    simp [opensAt_concat_iff, Instruction.opens, hs]
  have hclose (k : Text) (n : Nat) : ClosesAt (p ++ [i]) k n ↔ ClosesAt p k n := by
    simp [closesAt_concat_iff, Instruction.closes, he]
  obtain ⟨h1, h2, h3, h4, h5, h6, h7, h8, h9, h10⟩ := h
  exact ⟨by simpa only [hopen], h2, by simpa only [hopen, hclose], h4, h5, h6,
    by simpa only [hopen], by simpa only [hclose], by simpa only [hopen], by simpa only [hopen]⟩

/-- Taking note of a statement keeps track of the loops. -/
theorem note {l' : Loops} (h : Tracks p l) (hn : l.note p.length i = .ok l') :
    Tracks (p ++ [i]) l' := by
  obtain ⟨ha, rfl⟩ | ⟨above, o, below, ha, hpending, hkey, habove, rfl⟩ | ⟨o, below, ha, -, rfl⟩ |
    ⟨h1, h2, -, rfl⟩ := note_cases hn
  · exact h.loopStart ha
  · exact h.loopEnd ha hpending hkey habove
  · exact h.other (by simp [ha]) (by simp [ha]) _
  · exact h.other h1 h2 _

end Tracks

/-! ## What is set aside -/

/-- Every statement that sets something aside leaves the last loop that is open
there. -/
structure Leaves (p : List Instruction) (l : Loops) : Prop where
  left : ∀ b s, (b, s) ∈ l.exits → LeavesAt p b ∧ s < b
  left_unique : ∀ b s s', (b, s) ∈ l.exits → (b, s') ∈ l.exits → s = s'
  left_known : ∀ b, LeavesAt p b → ∃ s, (b, s) ∈ l.exits
  /-- The loop that is left ends later. -/
  around : ∀ b s, (b, s) ∈ l.exits →
    (∃ o ∈ l.pending, o.index = s) ∨ ∃ e, (s, e) ∈ l.pairs ∧ b < e
  /-- A loop that starts behind the one that is left has ended already. -/
  latest : ∀ b s, (b, s) ∈ l.exits → ∀ k s', OpensAt p k s' → s' < b →
    s' ≤ s ∨ ∃ e, (s', e) ∈ l.pairs ∧ e < b

namespace Leaves

variable {p : List Instruction} {l : Loops} {i : Instruction}

theorem nil : Leaves [] {} where
  left := by simp
  left_unique := by simp
  left_known := by simp [LeavesAt]
  around := by simp
  latest := by simp

/-- A statement that sets nothing aside may open loops and pair open ones. -/
theorem of_not_setAside (h : Leaves p l) (ha : i.action ≠ .setAside) {l' : Loops}
    (hexits : l'.exits = l.exits)
    (hpairs : ∀ q ∈ l.pairs, q ∈ l'.pairs)
    (hpending : ∀ o ∈ l.pending, o ∈ l'.pending ∨ (o.index, p.length) ∈ l'.pairs) :
    Leaves (p ++ [i]) l' := by
  have hleave (b : Nat) : LeavesAt (p ++ [i]) b ↔ LeavesAt p b := by
    simp [leavesAt_concat_iff, ha]
  refine ⟨?_, ?_, ?_, ?_, ?_⟩
  · rw [hexits]
    simpa only [hleave] using h.left
  · rw [hexits]
    exact h.left_unique
  · rw [hexits]
    simpa only [hleave] using h.left_known
  · rw [hexits]
    intro b s hb
    rcases h.around b s hb with ⟨o, ho, rfl⟩ | ⟨e, hp, he⟩
    · rcases hpending o ho with ho | hp
      · exact .inl ⟨o, ho, rfl⟩
      · exact .inr ⟨p.length, hp, (h.left b _ hb).1.lt⟩
    · exact .inr ⟨e, hpairs _ hp, he⟩
  · rw [hexits]
    intro b s hb k s' hs' hlt
    have hbound := Nat.lt_trans hlt (h.left b s hb).1.lt
    rcases h.latest b s hb k s' (hs'.of_concat hbound) hlt with hle | ⟨e, hp, he⟩
    · exact .inl hle
    · exact .inr ⟨e, hpairs _ hp, he⟩

theorem setAside (h : Leaves p l) (ht : Tracks p l) (ha : i.action = .setAside) {o : Opening}
    {below : List Opening} (hpending : l.pending = o :: below) :
    Leaves (p ++ [i]) { l with exits := (p.length, o.index) :: l.exits } := by
  have ho : o ∈ l.pending := by simp [hpending]
  have hopen (k : Text) (n : Nat) (hn : OpensAt (p ++ [i]) k n) : OpensAt p k n :=
    (opensAt_concat_iff.1 hn).resolve_right fun hlast => by simp [Instruction.opens, ha] at hlast
  have hdec := ht.decreasing
  rw [hpending, List.pairwise_cons] at hdec
  refine ⟨?_, ?_, ?_, ?_, ?_⟩
  · intro b s hb
    rcases List.mem_cons.1 hb with hb | hb
    · obtain ⟨rfl, rfl⟩ := Prod.mk.inj hb
      exact ⟨leavesAt_concat_iff.2 (.inr ⟨rfl, ha⟩), (ht.opened o ho).lt⟩
    · exact ⟨leavesAt_concat_iff.2 (.inl (h.left b s hb).1), (h.left b s hb).2⟩
  · intro b s s' hb hb'
    rcases List.mem_cons.1 hb with hb | hb <;> rcases List.mem_cons.1 hb' with hb' | hb'
    · rw [(Prod.mk.inj hb).2, (Prod.mk.inj hb').2]
    · exact absurd (Prod.mk.inj hb).1 (Nat.ne_of_lt (h.left b s' hb').1.lt)
    · exact absurd (Prod.mk.inj hb').1 (Nat.ne_of_lt (h.left b s hb).1.lt)
    · exact h.left_unique b s s' hb hb'
  · intro b hb
    rcases leavesAt_concat_iff.1 hb with hb | ⟨rfl, -⟩
    · obtain ⟨s, hs⟩ := h.left_known b hb
      exact ⟨s, List.mem_cons_of_mem _ hs⟩
    · exact ⟨o.index, List.mem_cons_self⟩
  · intro b s hb
    rcases List.mem_cons.1 hb with hb | hb
    · obtain ⟨rfl, rfl⟩ := Prod.mk.inj hb
      exact .inl ⟨o, ho, rfl⟩
    · exact h.around b s hb
  · intro b s hb k s' hs' hlt
    rcases List.mem_cons.1 hb with hb | hb
    · -- every start so far is paired, or open below the top
      obtain ⟨rfl, rfl⟩ := Prod.mk.inj hb
      rcases ht.start_known k s' (hopen k s' hs') with ⟨o', ho', rfl⟩ | ⟨e, hp⟩
      · rw [hpending, List.mem_cons] at ho'
        rcases ho' with rfl | ho'
        · exact .inl (Nat.le_refl _)
        · exact .inl (Nat.le_of_lt (hdec.1 o' ho'))
      · exact .inr ⟨e, hp, ht.pair_lt hp⟩
    · exact h.latest b s hb k s' (hopen k s' hs') hlt

theorem note {l' : Loops} (h : Leaves p l) (ht : Tracks p l) (hn : l.note p.length i = .ok l') :
    Leaves (p ++ [i]) l' := by
  obtain ⟨ha, rfl⟩ | ⟨above, o, below, ha, hpending, -, -, rfl⟩ | ⟨o, below, ha, hpending, rfl⟩ |
    ⟨-, -, ha, rfl⟩ := note_cases hn
  · exact h.of_not_setAside (by simp [ha]) rfl (fun _ hq => hq) fun o ho =>
      .inl (List.mem_cons_of_mem _ ho)
  · refine h.of_not_setAside (by simp [ha]) rfl (fun _ hq => List.mem_cons_of_mem _ hq) ?_
    intro o' ho'
    rw [hpending, List.mem_append, List.mem_cons] at ho'
    rcases ho' with ho' | rfl | ho'
    · exact .inl (List.mem_append_left _ ho')
    · exact .inr List.mem_cons_self
    · exact .inl (List.mem_append_right _ ho')
  · exact h.setAside ht ha hpending
  · exact h.of_not_setAside ha rfl (fun _ hq => hq) fun o ho => .inl ho

end Leaves

/-! ## Numbers of starts and ends -/

/-- The open loops are what the starts are more than the ends, for each closing
word and in all. -/
structure Counts (p : List Instruction) (l : Loops) : Prop where
  each : ∀ k, p.countP (Instruction.opens k) =
    p.countP (Instruction.closes k) + l.pending.countP (·.start.keyword = k)
  all : p.countP (·.action = .loopStart) = p.countP (·.action = .loopEnd) + l.pending.length

namespace Counts

variable {p : List Instruction} {l : Loops} {i : Instruction}

theorem nil : Counts [] {} where
  each := by simp
  all := by simp

theorem note {l' : Loops} (h : Counts p l) (hn : l.note p.length i = .ok l') :
    Counts (p ++ [i]) l' := by
  have heach := h.each
  have hall := h.all
  obtain ⟨ha, rfl⟩ | ⟨above, o, below, ha, hpending, hkey, -, rfl⟩ | ⟨o, below, ha, -, rfl⟩ |
    ⟨h1, h2, -, rfl⟩ := note_cases hn
  · refine ⟨fun k => ?_, ?_⟩
    · have hk := heach k
      simp [List.countP_append, List.countP_cons, Instruction.opens, Instruction.closes, ha] at hk ⊢
      omega
    · simp [List.countP_append, ha, hall]
      omega
  · rw [hpending] at hall
    refine ⟨fun k => ?_, ?_⟩
    · have hk := heach k
      rw [hpending] at hk
      simp [List.countP_append, List.countP_cons, Instruction.opens, Instruction.closes, ha,
        hkey] at hk ⊢
      omega
    · simp [List.countP_append, ha, hall]
      omega
  · refine ⟨fun k => ?_, ?_⟩
    · simp [List.countP_append, Instruction.opens, Instruction.closes, ha, heach k]
    · simp [List.countP_append, ha, hall]
  · refine ⟨fun k => ?_, ?_⟩
    · simp [List.countP_append, Instruction.opens, Instruction.closes, h1, h2, heach k]
    · simp [List.countP_append, h1, h2, hall]

end Counts

/-! ## Noting statement after statement -/

theorem noteAll_append (l : Loops) (n : Nat) (p q : List Instruction) :
    l.noteAll n (p ++ q) =
      match l.noteAll n p with
      | .error cause => .error cause
      | .ok l' => l'.noteAll (n + p.length) q := by
  induction p generalizing l n with
  | nil => rfl
  | cons i p ih =>
    rw [List.cons_append, noteAll, noteAll]
    cases l.note n i with
    | error cause => rfl
    | ok l' =>
      show l'.noteAll (n + 1) (p ++ q) = match l'.noteAll (n + 1) p with
        | .error cause => .error cause
        | .ok l' => l'.noteAll (n + (p.length + 1)) q
      rw [ih l' (n + 1), Nat.add_assoc, Nat.add_comm 1 p.length]

theorem noteAll_concat (l : Loops) (n : Nat) (p : List Instruction) (i : Instruction) :
    l.noteAll n (p ++ [i]) =
      match l.noteAll n p with
      | .error cause => .error cause
      | .ok l' => l'.note (n + p.length) i := by
  rw [noteAll_append]
  cases l.noteAll n p with
  | error cause => rfl
  | ok l' =>
    simp only [noteAll]
    cases l'.note (n + p.length) i <;> rfl

/-- What is known after any number of statements. -/
theorem tracks_noteAll {p : List Instruction} {l : Loops}
    (h : ({} : Loops).noteAll 0 p = .ok l) : Tracks p l ∧ Leaves p l ∧ Counts p l := by
  induction p using List.reverseRecOn generalizing l with
  | nil =>
    cases h
    exact ⟨.nil, .nil, .nil⟩
  | append_singleton p i ih =>
    rw [noteAll_concat] at h
    split at h
    · cases h
    · next l₁ h₁ =>
      obtain ⟨ht, hl, hc⟩ := ih h₁
      rw [Nat.zero_add] at h
      exact ⟨ht.note h, hl.note ht h, hc.note h⟩

end Loops

end Cookbook
