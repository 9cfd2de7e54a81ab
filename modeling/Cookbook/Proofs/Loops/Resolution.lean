import Cookbook.Program.Assembly
import Cookbook.Proofs.Loops.Pairing

/-!
# Cookbook.Proofs.Loops.Resolution

Pairing the loops of a method is exact.  It succeeds for the methods in which
every loop is ended and nothing is set aside outside of loops, told by counting
alone (`Balanced`), and for no others; what comes out has every loop paired and
is otherwise the method that went in (`Resolved`).
-/

namespace Cookbook

namespace Loops

/-! ## What succeeds and what comes out -/

/-- For every closing word the ends never get ahead of the starts and come up
to them in the end, and something is set aside only where more loops have
started than ended. -/
structure Balanced (method : List Instruction) : Prop where
  not_ahead : ∀ k p, p <+: method →
    p.countP (Instruction.closes k) ≤ p.countP (Instruction.opens k)
  even : ∀ k, method.countP (Instruction.closes k) = method.countP (Instruction.opens k)
  inside : ∀ p i q, method = p ++ i :: q → i.action = .setAside →
    p.countP (·.action = .loopEnd) < p.countP (·.action = .loopStart)

/-- Whether the statement with the given index is `i`, and what it asks for. -/
def StandsAt (m : List Instruction) (n : Nat) (a : Action) (i : Instruction) : Prop :=
  m[n]? = some i ∧ i.action = a

/-- Whether a statement is given a target. -/
def IsTargeted (a : Action) : Prop := a = .loopStart ∨ a = .loopEnd ∨ a = .setAside

/-- A method with its loops paired, and nothing else changed. -/
structure Resolved (method resolved : List Instruction) : Prop where
  length_eq : resolved.length = method.length
  /-- The target of a start is an end behind it, with the start as its target. -/
  start_target : ∀ s i, StandsAt resolved s .loopStart i →
    ∃ j, StandsAt resolved i.target .loopEnd j ∧ j.target = s ∧ s < i.target ∧
      j.keyword = i.keyword
  /-- The target of an end is a start before it, with the end as its target. -/
  end_target : ∀ e j, StandsAt resolved e .loopEnd j →
    ∃ i, StandsAt resolved j.target .loopStart i ∧ i.target = e ∧ j.target < e ∧
      i.keyword = j.keyword
  /-- Of two loops with one closing word, the later lies behind the earlier or
  inside of it. -/
  not_crossing : ∀ s s' i i', StandsAt resolved s .loopStart i →
    StandsAt resolved s' .loopStart i' → i.keyword = i'.keyword → s < s' →
      i.target < s' ∨ i'.target < i.target
  /-- What is set aside leaves the loop around it that starts last. -/
  exit_target : ∀ b x, StandsAt resolved b .setAside x →
    ∃ s i, StandsAt resolved s .loopStart i ∧ s < b ∧ b < i.target ∧ x.target = i.target ∧
      ∀ s' i', StandsAt resolved s' .loopStart i' → s' < b → b < i'.target → s' ≤ s
  target_lt : ∀ n a i, StandsAt resolved n a i → IsTargeted a → i.target < resolved.length
  /-- A start is given its closing word; nothing else is changed but the
  targets. -/
  unchanged : ∀ (n : Nat) (i j : Instruction), method[n]? = some i → resolved[n]? = some j →
    j = { i with
      keyword := if i.action = .loopStart then closingWord i.name else i.keyword
      target := j.target } ∧ (¬ IsTargeted i.action → j = i)

/-! ## Looking up what is known -/

theorem lookup_eq_some_of_mem {xs : List (Nat × Nat)} {a b : Nat} (h : (a, b) ∈ xs)
    (hu : ∀ b', (a, b') ∈ xs → b' = b) : xs.lookup a = some b := by
  induction xs with
  | nil => simp at h
  | cons x xs ih =>
    obtain ⟨c, d⟩ := x
    rw [List.lookup_cons]
    by_cases hc : a = c
    · subst hc
      rw [beq_self_eq_true, hu d List.mem_cons_self]
    · have hmem : (a, b) ∈ xs := (List.mem_cons.1 h).resolve_left fun heq => hc (Prod.mk.inj heq).1
      rw [beq_false_of_ne hc]
      exact ih hmem fun b' hb' => hu b' (List.mem_cons_of_mem _ hb')

section

variable {p : List Instruction} {l : Loops}

theorem Tracks.endOf_eq (h : Tracks p l) {s e : Nat} (hp : (s, e) ∈ l.pairs) : l.endOf s = e := by
  rw [endOf, lookup_eq_some_of_mem hp fun e' hp' => h.end_unique s e' e hp' hp]
  rfl

theorem Tracks.startOf_eq (h : Tracks p l) {s e : Nat} (hp : (s, e) ∈ l.pairs) :
    l.startOf e = s := by
  have hsome : (l.pairs.find? fun q => q.2 = e).isSome := by
    rw [List.find?_isSome]
    exact ⟨(s, e), hp, by simp⟩
  obtain ⟨⟨s', e'⟩, hfind⟩ := Option.isSome_iff_exists.1 hsome
  have he : e' = e := by simpa using List.find?_some hfind
  have hs : s' = s := h.start_unique s' s e (he ▸ List.mem_of_find?_eq_some hfind) hp
  rw [startOf, hfind, ← hs]
  rfl

theorem Leaves.leftAt_eq (h : Leaves p l) {b s : Nat} (hb : (b, s) ∈ l.exits) : l.leftAt b = s := by
  rw [leftAt, lookup_eq_some_of_mem hb fun s' hb' => h.left_unique b s' s hb' hb]
  rfl

end

/-! ## A method that is paired -/

section

variable {method : List Instruction} {l : Loops}

theorem action_connect (l : Loops) (n : Nat) (i : Instruction) :
    (l.connect n i).action = i.action := by
  rw [connect]
  split <;> rfl

theorem connect_of_not_targeted {n : Nat} {i : Instruction} (h : ¬ IsTargeted i.action) :
    l.connect n i = i := by
  unfold connect
  cases ha : i.action <;> simp [IsTargeted, ha] at h ⊢

theorem getElem?_connect_iff {n : Nat} {j : Instruction} :
    (method.mapIdx l.connect)[n]? = some j ↔ ∃ i, method[n]? = some i ∧ l.connect n i = j := by
  rw [List.getElem?_mapIdx, Option.map_eq_some_iff]

/-- A start is paired with its target. -/
theorem pair_of_start (ht : Tracks method l) (hp : l.pending = []) {s : Nat} {i : Instruction}
    (h : StandsAt (method.mapIdx l.connect) s .loopStart i) :
    (s, i.target) ∈ l.pairs ∧ OpensAt method i.keyword s := by
  obtain ⟨hget, ha⟩ := h
  obtain ⟨i₀, hi₀, rfl⟩ := getElem?_connect_iff.1 hget
  rw [action_connect] at ha
  have hopen : OpensAt method (closingWord i₀.name) s :=
    ⟨i₀, hi₀, Instruction.opens_iff.2 ⟨ha, rfl⟩⟩
  rcases ht.start_known _ s hopen with ⟨o, ho, -⟩ | ⟨e, he⟩
  · simp [hp] at ho
  · simp only [connect, ha, ht.endOf_eq he]
    exact ⟨he, hopen⟩

/-- An end is paired with its target. -/
theorem pair_of_end (ht : Tracks method l) {e : Nat} {j : Instruction}
    (h : StandsAt (method.mapIdx l.connect) e .loopEnd j) :
    (j.target, e) ∈ l.pairs ∧ ClosesAt method j.keyword e := by
  obtain ⟨hget, ha⟩ := h
  obtain ⟨j₀, hj₀, rfl⟩ := getElem?_connect_iff.1 hget
  rw [action_connect] at ha
  have hclose : ClosesAt method j₀.keyword e := ⟨j₀, hj₀, Instruction.closes_iff.2 ⟨ha, rfl⟩⟩
  obtain ⟨s, hs⟩ := ht.end_known _ e hclose
  simp only [connect, ha, ht.startOf_eq hs]
  exact ⟨hs, hclose⟩

/-- A pair is a start and an end that have each other as targets. -/
theorem stands_of_pair (ht : Tracks method l) {s e : Nat} (h : (s, e) ∈ l.pairs) :
    s < e ∧ ∃ i j, StandsAt (method.mapIdx l.connect) s .loopStart i ∧ i.target = e ∧
      StandsAt (method.mapIdx l.connect) e .loopEnd j ∧ j.target = s ∧ i.keyword = j.keyword := by
  obtain ⟨hlt, k, ⟨i, hi, hopen⟩, ⟨j, hj, hclose⟩⟩ := ht.paired s e h
  rw [Instruction.opens_iff] at hopen
  rw [Instruction.closes_iff] at hclose
  refine ⟨hlt, l.connect s i, l.connect e j, ⟨getElem?_connect_iff.2 ⟨i, hi, rfl⟩, ?_⟩, ?_,
    ⟨getElem?_connect_iff.2 ⟨j, hj, rfl⟩, ?_⟩, ?_, ?_⟩
  · rw [action_connect, hopen.1]
  · simp only [connect, hopen.1, ht.endOf_eq h]
  · rw [action_connect, hclose.1]
  · simp only [connect, hclose.1, ht.startOf_eq h]
  · simp only [connect, hopen.1, hclose.1, hopen.2, hclose.2]

/-- What is set aside leaves the loop that is known to be left there. -/
theorem exit_of_setAside (ht : Tracks method l) (hl : Leaves method l) (hp : l.pending = [])
    {b : Nat} {x : Instruction} (h : StandsAt (method.mapIdx l.connect) b .setAside x) :
    ∃ s, (b, s) ∈ l.exits ∧ (s, x.target) ∈ l.pairs ∧ b < x.target := by
  obtain ⟨hget, ha⟩ := h
  obtain ⟨x₀, hx₀, rfl⟩ := getElem?_connect_iff.1 hget
  rw [action_connect] at ha
  obtain ⟨s, hs⟩ := hl.left_known b ⟨x₀, hx₀, ha⟩
  rcases hl.around b s hs with ⟨o, ho, -⟩ | ⟨e, he, hlt⟩
  · simp [hp] at ho
  · simp only [connect, ha, hl.leftAt_eq hs, ht.endOf_eq he]
    exact ⟨s, hs, he, hlt⟩

theorem resolved_mapIdx_connect (ht : Tracks method l) (hl : Leaves method l)
    (hp : l.pending = []) : Resolved method (method.mapIdx l.connect) where
  length_eq := List.length_mapIdx
  start_target s i h := by
    obtain ⟨hpair, -⟩ := pair_of_start ht hp h
    obtain ⟨hlt, i', j, hi', -, hj, hjs, hkey⟩ := stands_of_pair ht hpair
    obtain rfl : i' = i := Option.some.inj (hi'.1.symm.trans h.1)
    exact ⟨j, hj, hjs, hlt, hkey.symm⟩
  end_target e j h := by
    obtain ⟨hpair, -⟩ := pair_of_end ht h
    obtain ⟨hlt, i, j', hi, hie, hj', -, hkey⟩ := stands_of_pair ht hpair
    obtain rfl : j' = j := Option.some.inj (hj'.1.symm.trans h.1)
    exact ⟨i, hi, hie, hlt, hkey⟩
  not_crossing s s' i i' h h' hkey hlt := by
    obtain ⟨hpair, hopen⟩ := pair_of_start ht hp h
    obtain ⟨hpair', hopen'⟩ := pair_of_start ht hp h'
    exact ht.nested _ _ _ _ _ hpair hpair' (hkey ▸ hopen) hopen' hlt
  exit_target b x h := by
    obtain ⟨s, hexit, hpair, hlt⟩ := exit_of_setAside ht hl hp h
    obtain ⟨-, i, j, hi, htarget, -⟩ := stands_of_pair ht hpair
    refine ⟨s, i, hi, (hl.left b s hexit).2, htarget ▸ hlt, htarget.symm, ?_⟩
    intro s' i' hi' hlt' hafter
    obtain ⟨hpair', hopen'⟩ := pair_of_start ht hp hi'
    rcases hl.latest b s hexit _ s' hopen' hlt' with hle | ⟨e, he, hbefore⟩
    · exact hle
    · -- a loop that ended before cannot lie around
      rw [ht.end_unique s' e _ he hpair'] at hbefore
      omega
  target_lt n a i h ha := by
    rw [List.length_mapIdx]
    rcases ha with rfl | rfl | rfl
    · exact ht.pair_lt (pair_of_start ht hp h).1
    · have hpair := (pair_of_end ht h).1
      exact Nat.lt_trans (ht.paired _ _ hpair).1 (ht.pair_lt hpair)
    · obtain ⟨s, -, hpair, -⟩ := exit_of_setAside ht hl hp h
      exact ht.pair_lt hpair
  unchanged n i j hi hj := by
    obtain ⟨i', hi', rfl⟩ := getElem?_connect_iff.1 hj
    obtain rfl : i' = i := Option.some.inj (hi'.symm.trans hi)
    rw [connect]
    split <;> simp_all [IsTargeted]

/-! ## Success by counting -/

theorem ofMethod_eq_ok_iff :
    ofMethod method = .ok l ↔ ({} : Loops).noteAll 0 method = .ok l ∧ l.pending = [] := by
  rw [ofMethod]
  constructor
  · intro h
    split at h
    · cases h
    · split at h
      · cases h
      · cases h
        exact ⟨‹_›, ‹_›⟩
  · rintro ⟨hnote, hpending⟩
    simp only [hnote, hpending]

theorem resolve_eq_ok_iff {resolved : List Instruction} :
    resolve method = .ok resolved ↔
      ∃ l, ofMethod method = .ok l ∧ method.mapIdx l.connect = resolved := by
  rw [resolve]
  cases ofMethod method <;> simp

/-- A method whose loops are paired is balanced. -/
theorem balanced_of_ofMethod (h : ofMethod method = .ok l) : Balanced method := by
  obtain ⟨hnote, hpending⟩ := ofMethod_eq_ok_iff.1 h
  refine ⟨?_, ?_, ?_⟩
  · rintro k p ⟨q, rfl⟩
    rw [noteAll_append] at hnote
    split at hnote
    · cases hnote
    · next l₁ h₁ =>
      have hcount := (tracks_noteAll h₁).2.2.each k
      omega
  · intro k
    have hcount := (tracks_noteAll hnote).2.2.each k
    rw [hpending, List.countP_nil] at hcount
    omega
  · rintro p i q rfl ha
    rw [noteAll_append] at hnote
    split at hnote
    · cases hnote
    · next l₁ h₁ =>
      have hcount := (tracks_noteAll h₁).2.2.all
      rw [noteAll, note, ha] at hnote
      cases hl₁ : l₁.pending with
      | nil => simp [hl₁] at hnote
      | cons o below =>
        rw [hl₁, List.length_cons] at hcount
        omega

/-- As long as the counts allow, every statement can be noted. -/
theorem exists_noteAll_of_balanced (h : Balanced method) {p : List Instruction}
    (hp : p <+: method) : ∃ l, ({} : Loops).noteAll 0 p = .ok l := by
  induction p using List.reverseRecOn with
  | nil => exact ⟨{}, rfl⟩
  | append_singleton p i ih =>
    obtain ⟨q, hq⟩ := hp
    obtain ⟨l, hl⟩ := ih ⟨i :: q, by rw [← hq]; simp⟩
    have hcounts := (tracks_noteAll hl).2.2
    rw [noteAll_concat, hl, Nat.zero_add]
    cases hn : l.note p.length i with
    | ok l' => exact ⟨l', hn⟩
    | error cause =>
      exfalso
      rw [note] at hn
      split at hn
      · cases hn
      · next ha =>
        -- there is a start more than ends so far
        have hahead := h.not_ahead i.keyword (p ++ [i]) ⟨q, hq⟩
        have hopen : i.opens i.keyword = false := by simp [Instruction.opens, ha]
        have hclose : i.closes i.keyword = true := by simp [Instruction.closes, ha]
        rw [List.countP_append, List.countP_append, List.countP_singleton, List.countP_singleton,
          hopen, hclose] at hahead
        have hcount := hcounts.each i.keyword
        split at hn
        · next hnone =>
          have hzero : l.pending.countP (·.start.keyword = i.keyword) = 0 := by
            rw [List.countP_eq_zero]
            exact List.find?_eq_none.1 hnone
          simp at hahead
          omega
        · cases hn
      · next ha =>
        have hinside := h.inside p i q (by rw [← hq]; simp) ha
        have hcount := hcounts.all
        split at hn
        · next hnil =>
          rw [hnil, List.length_nil] at hcount
          omega
        · cases hn
      · cases hn

theorem exists_ofMethod_of_balanced (h : Balanced method) : ∃ l, ofMethod method = .ok l := by
  obtain ⟨l, hl⟩ := exists_noteAll_of_balanced h List.prefix_rfl
  refine ⟨l, ofMethod_eq_ok_iff.2 ⟨hl, ?_⟩⟩
  rw [List.eq_nil_iff_forall_not_mem]
  intro o ho
  have hcount := (tracks_noteAll hl).2.2.each o.start.keyword
  have heven := h.even o.start.keyword
  have hpos : 0 < l.pending.countP (·.start.keyword = o.start.keyword) :=
    List.countP_pos_iff.2 ⟨o, ho, by simp⟩
  omega

/-- Loops are paired exactly in balanced methods. -/
theorem exists_resolve_iff :
    (∃ resolved, resolve method = .ok resolved) ↔ Balanced method := by
  constructor
  · rintro ⟨resolved, h⟩
    obtain ⟨l, hl, -⟩ := resolve_eq_ok_iff.1 h
    exact balanced_of_ofMethod hl
  · intro h
    obtain ⟨l, hl⟩ := exists_ofMethod_of_balanced h
    exact ⟨method.mapIdx l.connect, resolve_eq_ok_iff.2 ⟨l, hl, rfl⟩⟩

theorem resolved_of_resolve {resolved : List Instruction} (h : resolve method = .ok resolved) :
    Resolved method resolved := by
  obtain ⟨l, hl, rfl⟩ := resolve_eq_ok_iff.1 h
  obtain ⟨hnote, hpending⟩ := ofMethod_eq_ok_iff.1 hl
  obtain ⟨ht, hleaves, -⟩ := tracks_noteAll hnote
  exact resolved_mapIdx_connect ht hleaves hpending

end

/-- Pairing the loops of a recipe succeeds exactly if its method is balanced,
and then gives the method with its loops paired; otherwise the recipe is refused
by its title. -/
theorem resolve_exact (d : Draft) :
    ((∃ resolved, resolve d.method = .ok resolved) ↔ Balanced d.method) ∧
      (∀ resolved, resolve d.method = .ok resolved →
        Resolved d.method resolved ∧
          Recipe.ofDraft d = .ok
            { name := d.title, ingredients := d.ingredients,
              instructions := resolved ++ d.serving }) ∧
      (¬ Balanced d.method →
        ∃ cause, Recipe.ofDraft d = .error { recipe := d.title, cause := cause }) := by
  refine ⟨exists_resolve_iff, fun resolved h => ⟨resolved_of_resolve h, ?_⟩, fun hnot => ?_⟩
  · rw [Recipe.ofDraft, h]
  · rw [Recipe.ofDraft]
    cases h : resolve d.method with
    | ok resolved => exact absurd (exists_resolve_iff.1 ⟨resolved, h⟩) hnot
    | error cause => exact ⟨cause, rfl⟩

end Loops

end Cookbook
