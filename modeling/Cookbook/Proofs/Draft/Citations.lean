import Cookbook.Draft.Book

/-!
# Cookbook.Proofs.Draft.Citations

A text is refused at one of its tokens (`exists_token_of_parse`).  The tokens that a
part can refuse the text at are those it was given: it looks at the next ones, keeps
the ones it took, and its list of them may be cut up, but no token is made up
(`Reading.Cites`).
-/

namespace Cookbook

open Text

/-! ## Errors point at tokens -/

/-- Whether an error points at a token with a property. -/
def ParseError.PointsAt (P : Token → Prop) (e : ParseError) : Prop :=
  ∃ t, P t ∧ e.location = t.location

theorem pointsAt_error {P : Token → Prop} {t : Token} (h : P t) (cause : ParseError.Cause) :
    (t.error cause).PointsAt P := ⟨t, h, rfl⟩

/-! ## Steps -/

namespace Reading

variable {P : Token → Prop} {Q : α → Prop} {Q' : β → Prop}

/-- Whether a reading of tokens with a property gives a fit result and leaves such
tokens, or points at one where it refuses the text. -/
structure Cites (P : Token → Prop) (r : Reading α) (Q : α → Prop) : Prop where
  result : ∀ {s a s'}, (∀ t ∈ s.toList, P t) → r s = .ok (a, s') → Q a ∧ ∀ t ∈ s'.toList, P t
  error : ∀ {s e}, (∀ t ∈ s.toList, P t) → r s = .error e → e.PointsAt P

theorem bind_eq_error {r : Reading α} {f : α → Reading β} {s : TokenStream} {e : ParseError}
    (h : (r >>= f) s = .error e) :
    r s = .error e ∨ ∃ a s₁, r s = .ok (a, s₁) ∧ f a s₁ = .error e := by
  rw [bind_def] at h
  rcases hr : r s with e' | ⟨a, s₁⟩
  · rw [hr] at h
    cases h
    exact .inl rfl
  · rw [hr] at h
    exact .inr ⟨a, s₁, rfl, h⟩

theorem cites_bind {r : Reading α} {f : α → Reading β} (hr : Cites P r Q)
    (hf : ∀ a, Q a → Cites P (f a) Q') : Cites P (r >>= f) Q' where
  result hs h := by
    obtain ⟨a, s₁, h₁, h₂⟩ := bind_eq_ok_iff.1 h
    obtain ⟨ha, hs₁⟩ := hr.result hs h₁
    exact (hf a ha).result hs₁ h₂
  error hs h := by
    rcases bind_eq_error h with h | ⟨a, s₁, h₁, h₂⟩
    · exact hr.error hs h
    · obtain ⟨ha, hs₁⟩ := hr.result hs h₁
      exact (hf a ha).error hs₁ h₂

theorem cites_pure {a : α} (h : Q a) : Cites P (pure a) Q where
  result hs h' := by
    cases h'
    exact ⟨h, hs⟩
  error _ h' := by cases h'

theorem cites_refuse {t : Token} (h : P t) (cause : ParseError.Cause) :
    Cites P (refuse t cause) Q where
  result _ h' := by cases h'
  error _ h' := by
    cases h'
    exact pointsAt_error h cause

theorem mem_toList_of_suffix {s : TokenStream} {ts : List Token} (h : ts <:+ s.ahead)
    (hs : ∀ t ∈ s.toList, P t) : ∀ t ∈ ({ s with ahead := ts } : TokenStream).toList, P t := by
  intro t ht
  refine hs t ?_
  rcases List.mem_append.1 ht with ht | ht
  · exact List.mem_append_left _ (h.subset ht)
  · exact List.mem_append_right _ ht

theorem peek_mem_toList (s : TokenStream) : s.peek ∈ s.toList := by
  obtain ⟨ahead, finish⟩ := s
  cases ahead with
  | nil => exact List.mem_singleton_self finish
  | cons t ts => exact List.mem_cons_self

theorem cites_peek : Cites P peek P where
  result hs h := by
    cases h
    exact ⟨hs _ (peek_mem_toList _), hs⟩
  error _ h := by cases h

theorem cites_next : Cites P next P where
  result hs h := by
    cases h
    exact ⟨hs _ (peek_mem_toList _), mem_toList_of_suffix (List.drop_suffix 1 _) hs⟩
  error _ h := by cases h

theorem cites_takeWhile (p : Token → Bool) : Cites P (takeWhile p) fun ts => ∀ t ∈ ts, P t where
  result hs h := by
    cases h
    exact ⟨fun t ht => hs t (List.mem_append_left _ ((List.takeWhile_prefix p).subset ht)),
      mem_toList_of_suffix (List.dropWhile_suffix p) hs⟩
  error _ h := by cases h

theorem cites_line : Cites P line fun ts => ∀ t ∈ ts, P t := cites_takeWhile _

theorem cites_atHeading (kind : Token.Kind) : Cites P (atHeading kind) fun _ => True where
  result hs h := by
    cases h
    exact ⟨trivial, hs⟩
  error _ h := by cases h

theorem cites_atWords (first second : Text) : Cites P (atWords first second) fun _ => True where
  result hs h := by
    cases h
    exact ⟨trivial, hs⟩
  error _ h := by cases h

theorem cites_whenHere {here : Reading Bool} {part : Reading α} (absent : α)
    (hhere : Cites P here fun _ => True) (hpart : Cites P part fun _ => True) :
    Cites P (whenHere here absent part) fun _ => True := by
  refine cites_bind hhere fun b _ => ?_
  cases b
  · exact cites_pure trivial
  · exact hpart

theorem cites_ofTokens {f : Token → List Token → Except ParseError (α × List Token)}
    (hok : ∀ finish tokens a rest, f finish tokens = .ok (a, rest) → rest <:+ tokens)
    (herror : ∀ finish tokens e, (∀ t ∈ tokens ++ [finish], P t) → f finish tokens = .error e →
      e.PointsAt P) : Cites P (ofTokens f) fun _ => True where
  result {s a s'} hs h := by
    rw [ofTokens] at h
    rcases hf : f s.finish s.ahead with e | ⟨b, rest⟩
    · rw [hf] at h
      cases h
    · rw [hf] at h
      cases h
      exact ⟨trivial, mem_toList_of_suffix (hok _ _ _ _ hf) hs⟩
  error {s e} hs h := by
    rw [ofTokens] at h
    rcases hf : f s.finish s.ahead with e' | ⟨b, rest⟩
    · rw [hf] at h
      cases h
      exact herror _ _ _ hs hf
    · rw [hf] at h
      cases h

end Reading

/-! ## Parts -/

namespace Grammar

open Reading

variable {P : Token → Prop} {e : ParseError}

theorem cites_newLineAfter (part : ParseError.Part) :
    Cites P (newLineAfter part) fun _ => True := by
  refine cites_bind cites_next fun t ht => ?_
  split
  · exact cites_pure trivial
  · exact cites_refuse ht _

theorem cites_blankLineAfter (part : ParseError.Part) :
    Cites P (blankLineAfter part) fun _ => True := by
  refine cites_bind cites_next fun t ht => ?_
  split
  · exact cites_pure trivial
  · exact cites_refuse ht _

theorem cites_heading (part : ParseError.Part) : Cites P (heading part) fun _ => True := by
  refine cites_bind cites_next fun _ _ => cites_bind cites_next fun _ _ =>
    cites_bind cites_next fun t ht => ?_
  split
  · exact cites_pure trivial
  · exact cites_refuse ht _

theorem cites_title : Cites P title fun _ => True := by
  refine cites_bind cites_peek fun _ _ => cites_bind cites_line fun tokens htokens => ?_
  split
  · exact cites_bind cites_peek fun t ht => cites_refuse ht _
  · next last hlast =>
    dsimp only
    split
    · exact cites_refuse (htokens _ (List.mem_of_getLast? hlast)) _
    · split
      · next t ht =>
        have hmem := List.mem_of_find?_eq_some ht
        exact cites_refuse (htokens _ ((List.dropLast_sublist tokens).subset hmem)) _
      · exact cites_pure trivial

theorem cites_optionalComment : Cites P optionalComment fun _ => True := by
  refine cites_bind (Q := fun _ => True) ?_ fun b _ => ?_
  · exact cites_bind (cites_atHeading _) fun _ _ => cites_bind (cites_atHeading _) fun _ _ =>
      cites_bind (cites_atWords _ _) fun _ _ => cites_bind (cites_atWords _ _) fun _ _ =>
        cites_pure trivial
  · cases b
    · exact cites_bind (cites_takeWhile _) fun _ _ =>
        cites_bind (cites_blankLineAfter _) fun _ _ => cites_pure trivial
    · exact cites_pure trivial

theorem pointsAt_of_splitMeasure {t : Token} {rest : List Token}
    (hts : ∀ u ∈ t :: rest, P u) (h : Ingredient.splitMeasure t rest = .error e) :
    e.PointsAt P := by
  rw [List.forall_mem_cons] at hts
  unfold Ingredient.splitMeasure at h
  split at h
  · split at h
    · cases h
      exact pointsAt_error hts.1 _
    · cases h
      exact pointsAt_error (hts.2 _ (by simp)) _
    · split at h
      · cases h
      · cases h
        exact pointsAt_error (hts.2 _ (by simp)) _
  · split at h <;> cases h

theorem mem_of_splitQuantity {ts rest : List Token} {value : Option Int64}
    (h : Ingredient.splitQuantity ts = (value, rest)) : ∀ t ∈ rest, t ∈ ts := by
  unfold Ingredient.splitQuantity at h
  split at h
  · cases h
    simp
  · split at h
    · cases h
      exact fun t ht => List.mem_cons_of_mem _ ht
    · cases h
      exact fun t ht => ht

theorem pointsAt_of_ofLine {first : Token} {others : List Token}
    (hts : ∀ t ∈ first :: others, P t) (h : Ingredient.ofLine first others = .error e) :
    e.PointsAt P := by
  rw [Ingredient.ofLine] at h
  split at h
  · next t ht =>
    cases h
    exact pointsAt_error (hts t (List.mem_of_find?_eq_some ht)) _
  · split at h
    · cases h
      exact pointsAt_error (hts first (by simp)) _
    · next value t rest hsplit =>
      have hrest : ∀ u ∈ t :: rest, P u := fun u hu => hts u (mem_of_splitQuantity hsplit u hu)
      obtain hm | ⟨m, -, h⟩ := Refusing.bind_eq_error_iff.1 h
      · exact pointsAt_of_splitMeasure hrest hm
      · cases h

theorem pointsAt_of_ingredientOf {stop : Token} {line : List Token} (hstop : P stop)
    (hline : ∀ t ∈ line, P t) (h : ingredientOf stop line = .error e) : e.PointsAt P := by
  cases line with
  | nil =>
    cases h
    exact pointsAt_error hstop _
  | cons first others => exact pointsAt_of_ofLine hline h

theorem pointsAt_of_ingredientLines {finish : Token} {tokens line : List Token}
    (hfinish : P finish) (htokens : ∀ t ∈ tokens, P t) (hline : ∀ t ∈ line, P t)
    (h : ingredientLines finish tokens line = .error e) : e.PointsAt P := by
  induction tokens generalizing line with
  | nil =>
    obtain hi | ⟨i, -, h⟩ := Refusing.bind_eq_error_iff.1 h
    · exact pointsAt_of_ingredientOf hfinish hline hi
    · cases h
  | cons t rest ih =>
    rw [List.forall_mem_cons] at htokens
    rw [ingredientLines] at h
    split at h
    · obtain hi | ⟨i, -, h⟩ := Refusing.bind_eq_error_iff.1 h
      · exact pointsAt_of_ingredientOf htokens.1 hline hi
      · split at h
        · obtain hrest | ⟨r, -, h⟩ := Refusing.bind_eq_error_iff.1 h
          · exact ih htokens.2 (by simp) hrest
          · cases h
        · cases h
    · exact ih htokens.2
        (List.forall_mem_append.2 ⟨hline, List.forall_mem_singleton.2 htokens.1⟩) h

theorem pointsAt_of_read {sentence : List Token} (hsentence : ∀ t ∈ sentence, P t)
    (h : Instruction.read sentence = .error e) : e.PointsAt P := by
  cases sentence with
  | nil => cases h
  | cons first others =>
    rw [Instruction.read] at h
    split at h
    · cases h
    · split at h
      · cases h
        exact pointsAt_error (hsentence first (by simp)) _
      · cases h

theorem pointsAt_of_statements {tokens sentence : List Token} (htokens : ∀ t ∈ tokens, P t)
    (hsentence : ∀ t ∈ sentence, P t) (h : statements tokens sentence = .error e) :
    e.PointsAt P := by
  have hlonger {t : Token} {rest sentence : List Token} (htokens : ∀ u ∈ t :: rest, P u)
      (hsentence : ∀ u ∈ sentence, P u) : ∀ u ∈ sentence ++ [t], P u :=
    List.forall_mem_append.2 ⟨hsentence, List.forall_mem_singleton.2 (htokens t (by simp))⟩
  fun_induction statements tokens sentence with
  | case2 | case5 | case7 | case11 => cases h
  | case1 _ _ hlast | case4 _ _ _ _ _ hlast | case6 _ _ _ _ _ hlast =>
    -- the statement has no period
    cases h
    exact pointsAt_error (hsentence _ (List.mem_of_getLast? hlast)) _
  | case3 t rest sentence hk ih => exact ih (List.forall_mem_cons.1 htokens).2 hsentence h
  | case8 t | case9 t =>
    cases h
    exact pointsAt_error (htokens t (by simp)) _
  | case10 t rest hk first others ih =>
    obtain hread | ⟨found, -, h⟩ := Refusing.bind_eq_error_iff.1 h
    · exact pointsAt_of_read hsentence hread
    · cases found with
      | none =>
        cases h
        exact pointsAt_error (hsentence first (by simp)) _
      | some i =>
        obtain hrest | ⟨r, -, h⟩ := Refusing.bind_eq_error_iff.1 h
        · exact ih (List.forall_mem_cons.1 htokens).2 (by simp) hrest
        · cases h
  | case12 t rest sentence hk hne ih =>
    exact ih (List.forall_mem_cons.1 htokens).2 (hlonger htokens hsentence) h
  | case13 t rest sentence hbreak hblank hfinish hunexpected hperiod hserves ih =>
    exact ih (List.forall_mem_cons.1 htokens).2 (hlonger htokens hsentence) h

theorem cites_ingredients : Cites P ingredients fun _ => True := by
  refine cites_bind (cites_heading _) fun _ _ => cites_bind (cites_ofTokens ?_ ?_) fun _ _ =>
    cites_bind (cites_blankLineAfter _) fun _ _ => cites_pure trivial
  · exact fun _ _ _ _ => ingredientLines_suffix
  · intro finish tokens e hts h
    rw [List.forall_mem_append, List.forall_mem_singleton] at hts
    exact pointsAt_of_ingredientLines hts.2 hts.1 (by simp) h

theorem cites_cookingTime : Cites P cookingTime fun _ => True := by
  refine cites_bind cites_peek fun first hfirst => cites_bind cites_line fun _ _ => ?_
  split
  · exact cites_refuse hfirst _
  · exact cites_bind (cites_newLineAfter _) fun _ _ => cites_pure trivial

theorem mem_of_ovenOf? {ts gas : List Token} {n : Int64} (h : ovenOf? ts = some (n, gas)) :
    ∀ t ∈ gas, t ∈ ts := by
  unfold ovenOf? at h
  split at h
  · split at h
    · split at h
      · cases h
        intro t ht
        have hmem := (List.dropLast_sublist _).subset ht
        simp [hmem]
      · cases h
    · cases h
  · cases h

theorem cites_oven : Cites P oven fun _ => True := by
  refine cites_bind cites_peek fun first hfirst => cites_bind cites_line fun tokens htokens => ?_
  split
  · exact cites_bind (cites_newLineAfter _) fun _ _ => cites_pure trivial
  · next gas mark number hoven =>
    split
    · exact cites_refuse (htokens gas (mem_of_ovenOf? hoven gas (by simp))) _
    · exact cites_bind (cites_newLineAfter _) fun _ _ => cites_pure trivial
  · exact cites_refuse hfirst _

theorem cites_method : Cites P method fun _ => True := by
  refine cites_bind (cites_atHeading _) fun b _ => ?_
  cases b
  · exact cites_bind cites_peek fun t ht => cites_refuse ht _
  · refine cites_bind (cites_heading _) fun _ _ =>
      cites_bind (cites_ofTokens (fun _ _ _ _ => statements_suffix) ?_) fun _ _ => ?_
    · intro finish tokens e hts h
      exact pointsAt_of_statements (List.forall_mem_append.1 hts).1 (by simp) h
    · split
      · exact cites_bind cites_peek fun t ht => cites_refuse ht _
      · exact cites_pure trivial

theorem cites_toServes : Cites P toServes fun _ => True where
  result hs h := by
    rw [toServes] at h
    split at h
    · cases h
      exact ⟨trivial, mem_toList_of_suffix (List.drop_suffix 1 _) hs⟩
    · cases h
      exact ⟨trivial, hs⟩
  error _ h := by
    rw [toServes] at h
    split at h <;> cases h

theorem cites_serves : Cites P serves fun _ => True := by
  refine cites_bind cites_toServes fun _ _ => cites_bind cites_peek fun _ _ => ?_
  split
  · refine cites_bind cites_next fun _ _ => cites_bind cites_next fun count hcount => ?_
    split
    · split
      · exact cites_refuse hcount _
      · refine cites_bind cites_next fun stop hstop => ?_
        split
        · refine cites_bind cites_peek fun t ht => ?_
          split
          · exact cites_pure trivial
          · exact cites_refuse ht _
        · exact cites_refuse hstop _
    · exact cites_refuse hcount _
  · exact cites_pure trivial

theorem cites_recipe : Cites P recipe fun _ => True :=
  cites_bind cites_title fun _ _ => cites_bind (cites_newLineAfter _) fun _ _ =>
    cites_bind cites_optionalComment fun _ _ =>
      cites_bind (cites_whenHere _ (cites_atHeading _) cites_ingredients) fun _ _ =>
        cites_bind (cites_whenHere _ (cites_atWords _ _) cites_cookingTime) fun _ _ =>
          cites_bind (cites_whenHere _ (cites_atWords _ _) cites_oven) fun _ _ =>
            cites_bind cites_method fun _ _ => cites_bind cites_serves fun _ _ =>
              cites_pure trivial

theorem pointsAt_of_moreRecipes {s : TokenStream} (hs : ∀ t ∈ s.toList, P t)
    (h : moreRecipes s = .error e) : e.PointsAt P := by
  induction s using moreRecipes_induction with
  | last s hahead =>
    rw [moreRecipes_of_isLineEnd hahead] at h
    cases h
  | lineBreak s t rest hahead hblank =>
    rw [moreRecipes_of_lineBreak hahead hblank] at h
    cases h
    have hs₁ := mem_toList_of_suffix (List.dropWhile_suffix Token.isLineEnd) hs
    have hmem : t ∈ s.ahead.dropWhile Token.isLineEnd := by simp [hahead]
    exact pointsAt_error (hs₁ t (List.mem_append_left _ hmem)) _
  | blankLine s t rest hahead hblank ih =>
    have hs₁ := mem_toList_of_suffix (List.dropWhile_suffix Token.isLineEnd) hs
    rw [moreRecipes_of_blankLine hahead hblank] at h
    obtain hd | ⟨d, s₁, hd, hds⟩ := recipes_eq_error_iff.1 h
    · exact cites_recipe.error hs₁ hd
    · exact ih d s₁ hd (cites_recipe.result hs₁ hd).2 hds

theorem pointsAt_of_book {s : TokenStream} (hs : ∀ t ∈ s.toList, P t)
    (h : book s = .error e) : e.PointsAt P := by
  have hs₁ := mem_toList_of_suffix (List.dropWhile_suffix Token.isLineEnd) hs
  rw [book] at h
  split at h
  · cases h
    exact pointsAt_error (hs s.finish (by simp [TokenStream.toList])) _
  · obtain hd | ⟨d, s₁, hd, hds⟩ := recipes_eq_error_iff.1 h
    · exact cites_recipe.error hs₁ hd
    · exact pointsAt_of_moreRecipes (cites_recipe.result hs₁ hd).2 hds

end Grammar

/-! ## Texts -/

/-- Where a text is refused, a token of it begins. -/
theorem exists_token_of_parse {text : Text} {e : ParseError} (h : Draft.parse text = .error e) :
    ∃ t ∈ Token.scan text, e.location = t.location :=
  Grammar.pointsAt_of_book (P := (· ∈ Token.scan text)) (fun _ ht => ht) h

end Cookbook
