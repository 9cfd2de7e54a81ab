import Cookbook.Proofs.Draft.Derivations
import Cookbook.Proofs.Draft.Relocation

/-!
# Cookbook.Proofs.Draft.Concatenation

Two recipe books with an empty line between them are one book with the recipes
of both (`parse_append`).  The breaks behind the last recipe of the first book
mean nothing (`Parts.Yields.trimmed`), so that the empty line ends it as the end
of the text did; and the second book is read as it was read alone, further down.
Only a title `Serves` behind a recipe that serves nobody would be taken for the
number of diners.
-/

namespace Cookbook

open Text

namespace Layout

/-! ## Breaks behind a recipe -/

theorem Sentences.ne_nil {ts : List Token} {is : List Instruction} (h : Sentences ts is)
    (his : is ≠ []) : ts ≠ [] := by
  cases h with
  | nil => exact absurd rfl his
  | cons h hstop hrest => simp

theorem Serves.ne_nil {ts : List Token} {v : Option Int64} (h : Serves ts v) : ts ≠ [] := by
  cases h with
  | intro => simp

namespace Parts

variable {p : Parts} {d : Draft}

/-- A recipe without the breaks behind its last statement. -/
def trimmed (p : Parts) : Parts :=
  { p with statements := p.statements.rdropWhile Token.isLineEnd }

/-- What is not trimmed are ends of lines. -/
theorem filter_trimmed (h : ∀ t ∈ p.statements, t.kind ≠ .blankLine) :
    (p.statements.rdropWhile Token.isLineEnd).filter (·.kind ≠ .lineBreak) =
      p.statements.filter (·.kind ≠ .lineBreak) := by
  have hsplit : p.statements.rdropWhile Token.isLineEnd ++ p.statements.rtakeWhile Token.isLineEnd =
      p.statements := List.rdropWhile_append_rtakeWhile
  have hbreaks : (p.statements.rtakeWhile Token.isLineEnd).filter (·.kind ≠ .lineBreak) = [] := by
    rw [List.filter_eq_nil_iff]
    intro t ht
    have hend := List.mem_rtakeWhile_imp ht
    have hblank := h t (hsplit ▸ List.mem_append_right _ ht)
    unfold Token.isLineEnd at hend
    grind
  conv_rhs => rw [← hsplit, List.filter_append, hbreaks, List.append_nil]

theorem contents_trimmed (hserves : p.serves = []) :
    p.contents = p.trimmed.contents ++ p.statements.rtakeWhile Token.isLineEnd := by
  have hsplit : p.statements.rdropWhile Token.isLineEnd ++ p.statements.rtakeWhile Token.isLineEnd =
      p.statements := List.rdropWhile_append_rtakeWhile
  simp only [contents, trimmed, hserves, List.append_nil, List.append_assoc, hsplit]

/-- Breaks behind the last statement mean nothing. -/
theorem Yields.trimmed (h : p.Yields d) (hserves : p.serves = [])
    (hparagraph : ∀ t ∈ p.statements, t.kind ≠ .blankLine) : p.trimmed.Yields d := by
  refine { h with comment_eq_nil_iff := ?_, statements := ⟨h.statements.ne_nil, ?_⟩ }
  · have hiff := h.comment_eq_nil_iff
    rw [contents_trimmed hserves] at hiff
    have hheading : Heading p.trimmed.heading := h.heading
    exact hiff.trans (exists_congr fun o => opens_append_iff hheading o _)
  · rw [Parts.trimmed, filter_trimmed hparagraph]
    exact h.statements.sentences

theorem tokens_trimmed (h : p.Yields d) (hserves : p.serves = [])
    (hparagraph : ∀ t ∈ p.statements, t.kind ≠ .blankLine) :
    p.trimmed.tokens = p.tokens.rdropWhile Token.isLineEnd := by
  have hne : p.statements.rdropWhile Token.isLineEnd ≠ [] := by
    intro hnil
    have hfilter := filter_trimmed hparagraph
    rw [hnil, List.filter_nil] at hfilter
    exact h.statements.sentences.ne_nil h.statements.ne_nil hfilter.symm
  rw [tokens_eq_front_append, tokens_eq_front_append, hserves, List.append_nil,
    rdropWhile_append_of_ne_nil hne]
  simp [trimmed, front, hserves]

/-- A recipe without the breaks behind it is a recipe. -/
theorem Yields.exists_rdropWhile (h : p.Yields d)
    (hparagraph : ∀ t ∈ p.statements, t.kind ≠ .blankLine) :
    ∃ q : Parts, q.Yields d ∧ q.tokens = p.tokens.rdropWhile Token.isLineEnd ∧
      q.serves = p.serves ∧ ∀ t ∈ q.statements, t.kind ≠ .blankLine := by
  have hv := h.serves
  generalize d.serves = v at hv
  generalize hts : p.serves = ts at hv
  cases hv with
  | missing =>
    refine ⟨p.trimmed, h.trimmed hts hparagraph, tokens_trimmed h hts hparagraph, hts, ?_⟩
    intro t ht
    exact hparagraph t ((List.rdropWhile_prefix _ _).subset ht)
  | here hv =>
    cases hv with
    | @intro blank serves count stop n hblank hserves hcount hn hstop =>
      refine ⟨p, h, ?_, hts, hparagraph⟩
      have hlast : p.tokens = p.front ++ p.statements ++ blank ++ [serves, count] ++ [stop] := by
        simp [tokens_eq_front_append, hts]
      rw [hlast, List.rdropWhile_concat_neg]
      simp [Token.isLineEnd, hstop]

end Parts

/-! ## Books behind each other -/

/-- What sets a recipe apart from others is the token they begin with. -/
theorem Parts.SetApart.of_kind {p : Parts} {blank t blank' t' : Token} {more more' : List Token}
    (h : p.SetApart (blank :: t :: more)) (hblank : blank.kind = .blankLine)
    (ht : t'.kind = t.kind) : p.SetApart (blank' :: t' :: more') := by
  refine ⟨h.paragraph, fun hserves _ _ _ hrest _ => ?_⟩
  cases hrest
  rw [ht]
  exact h.nobody hserves blank t more rfl hblank

theorem Recipes.rdropWhile_ne_nil {fits : Parts → List Token → Prop} {ts : List Token}
    {ds : List Draft} (h : Recipes fits ts ds) : ts.rdropWhile Token.isLineEnd ≠ [] := by
  obtain ⟨t, ts', rfl, ht⟩ := Grammar.exists_cons_of_recipes h
  rw [ne_eq, List.rdropWhile_eq_nil_iff]
  intro hall
  rw [hall t (by simp)] at ht
  cases ht

theorem Recipes.ne_nil {fits : Parts → List Token → Prop} {ts : List Token} {ds : List Draft}
    (h : Recipes fits ts ds) : ds ≠ [] := by
  cases h <;> simp

theorem Gap.isLineEnd {ts : List Token} (h : Gap ts) : ∀ t ∈ ts, t.isLineEnd := by
  cases h with
  | none => simp
  | one ht => simpa using ht

/-- Recipes behind recipes, with a blank line in place of the breaks between
them. -/
theorem Recipes.append {ts us : List Token} {ds es : List Draft} {blank : Token}
    (h : Recipes Parts.SetApart ts ds) (hblank : blank.kind = .blankLine)
    (hus : Recipes Parts.SetApart us es)
    (hserves : ∀ t, us.head? = some t → t.kind = .serves →
      ∃ d n, ds.getLast? = some d ∧ d.serves = some n) :
    Recipes Parts.SetApart (ts.rdropWhile Token.isLineEnd ++ blank :: us) (ds ++ es) := by
  induction h with
  | @last p d trail hp hset htrail =>
    obtain ⟨q, hq, htokens, hqserves, hparagraph⟩ := hp.exists_rdropWhile hset.paragraph
    rw [rdropWhile_append_of_all htrail.isLineEnd, ← htokens]
    refine .cons hq ⟨hparagraph, fun hnobody g t more hrest _ ht => ?_⟩ hblank hus
    cases hrest
    obtain ⟨d', n, hd', hn⟩ := hserves t rfl ht
    obtain rfl : d = d' := by simpa using hd'
    -- a recipe that serves somebody says so
    have hv := hq.serves
    rw [hnobody, hn] at hv
    cases hv with
    | here hv => exact hv.ne_nil rfl
  | @cons p d blank' rest ds hp hset hblank' hrest ih =>
    obtain ⟨t, rest', rfl, -⟩ := Grammar.exists_cons_of_recipes hrest
    obtain ⟨d', ds', rfl⟩ := List.exists_cons_of_ne_nil hrest.ne_nil
    have hdrop : (p.tokens ++ blank' :: t :: rest').rdropWhile Token.isLineEnd =
        p.tokens ++ blank' :: (t :: rest').rdropWhile Token.isLineEnd := by
      rw [List.append_cons, rdropWhile_append_of_ne_nil hrest.rdropWhile_ne_nil, ← List.append_cons]
    rw [hdrop, List.append_assoc, List.cons_append]
    refine .cons hp ?_ hblank' (ih (by simpa only [List.getLast?_cons_cons] using hserves))
    -- the next recipe begins with the same token
    obtain ⟨u, us', hcons⟩ := List.exists_cons_of_ne_nil hrest.rdropWhile_ne_nil
    obtain ⟨back, hback⟩ := List.rdropWhile_prefix Token.isLineEnd (t :: rest')
    rw [hcons, List.cons_append, List.cons.injEq] at hback
    rw [hcons]
    exact hset.of_kind hblank' (congrArg Token.kind hback.1)

end Layout

/-! ## Texts -/

/-- The first token that is no break is the first one behind a break. -/
theorem find?_append_of_gap {lead ts : List Token} {t : Token} (h : Layout.Gap lead)
    (hhead : ts.head? = some t) (ht : t.isBreak = false) :
    (lead ++ ts).find? (fun t => !t.isBreak) = some t := by
  obtain ⟨ts, rfl⟩ := List.head?_eq_some_iff.1 hhead
  cases h with
  | none => simp [ht]
  | one hu => simp [Grammar.isBreak_of_isLineEnd hu, ht]

open Layout

/-- Reading books is compatible with putting them together.  Two texts that are
accepted are accepted with an empty line between them, and the recipes of the
second differ only in that they stand further down, unless the second begins
with `Serves` and the last recipe of the first does not say whom it serves. -/
theorem parse_append {s t : Text} {ds es : List Draft} (hs : (0 : UInt8) ∉ s)
    (ht : (0 : UInt8) ∉ t) (hds : Draft.parse s = .ok ds) (hes : Draft.parse t = .ok es)
    (hserves : ∀ u, (Token.scan t).find? (fun u => !u.isBreak) = some u → u.kind = .serves →
      ∃ d n, ds.getLast? = some d ∧ d.serves = some n) :
    Draft.parse (s ++ ofString "\n\n" ++ t) =
      .ok (ds ++ es.map (Draft.relocated (.down (s.count lineFeed + 2)))) := by
  obtain ⟨blank, hblank, hscan⟩ := exists_scan_append hs ht
  have hfirst := book_of_parse hds
  have hsecond := book_of_parse hes
  apply parse_of_book
  rw [hscan]
  generalize Token.scan s = firsts at hfirst
  generalize Token.scan t = seconds at hsecond hserves
  cases hfirst with
  | @intro lead ts finish _ hlead hrecipes hfinish =>
    cases hsecond with
    | @intro lead' us finish' _ hlead' hrecipes' hfinish' =>
      obtain ⟨u, us, rfl, hu⟩ := Grammar.exists_cons_of_recipes hrecipes'
      have hfront : (lead ++ (ts ++ [finish])).dropLast.rdropWhile Token.isLineEnd =
          lead ++ ts.rdropWhile Token.isLineEnd := by
        rw [← List.append_assoc, List.dropLast_concat,
          rdropWhile_append_of_ne_nil hrecipes.rdropWhile_ne_nil]
      have hback : (lead' ++ (u :: us ++ [finish'])).dropWhile Token.isLineEnd =
          u :: us ++ [finish'] := by
        rw [List.dropWhile_append_of_pos hlead'.isLineEnd, List.cons_append, List.dropWhile_cons,
          if_neg (by simp [hu])]
      rw [hfront, hback, List.map_append, List.append_assoc, ← List.cons_append,
        ← List.append_assoc (ts.rdropWhile _)]
      refine .intro hlead (hrecipes.append hblank hrecipes'.relocated fun v hv hk => ?_) hfinish'
      obtain rfl : u.relocated _ = v := Option.some.inj hv
      have hword : u.isBreak = false := by
        rw [Token.kind_relocated] at hk
        simp [Token.isBreak, hk]
      exact hserves u (find?_append_of_gap hlead' rfl hword) hk

/-- A book whose last recipe serves two and has blank lines behind it, and one
that begins with a break and the title `Serves`. -/
theorem parse_append_serves :
    let first : Text := "Soup.\n\nMethod.\nMix well.\n\nServes 2.\n \n"
    let second : Text := "\n Serves.\n\nMethod.\nSet aside.\nRefrigerate.\n"
    let soup : Draft :=
      { title := "Soup", location := { line := 1, col := 0 }, serves := some 2
        method := [{ action := .mix, location := { line := 4, col := 0 } }] }
    let guests (n : Int) : Draft :=
      { title := "Serves", location := { line := n, col := 1 }
        method := [{ action := .setAside, location := { line := n + 3, col := 0 } },
          { action := .refrigerate, location := { line := n + 4, col := 0 } }] }
    Draft.parse first = .ok [soup] ∧ Draft.parse second = .ok [guests 2] ∧
      Draft.parse (first ++ ofString "\n\n" ++ second) = .ok [soup, guests 11] := by
  intro first second soup guests
  have hfirst : Draft.parse first = .ok [soup] := by decide +kernel
  have hsecond : Draft.parse second = .ok [guests 2] := by decide +kernel
  have hboth := parse_append (by decide) (by decide) hfirst hsecond fun _ _ _ =>
    ⟨soup, 2, rfl, rfl⟩
  exact ⟨hfirst, hsecond, hboth.trans (by decide +kernel)⟩

end Cookbook
