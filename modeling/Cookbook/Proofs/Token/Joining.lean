import Cookbook.Proofs.Token.Lexemes

/-!
# Cookbook.Proofs.Token.Joining

Tokens that are joined with single spaces are scanned again as themselves
(`scan_join`).  What stands side by side in a book is well spelled: no two gaps meet,
and a space ends every other lexeme.  So the spaces neither cut a token nor let two
of them run together, also next to the line feeds of a gap.
-/

namespace Cookbook

open Text

/-! ## Tokens of a book side by side -/

/-- A part of what is well spelled is well spelled. -/
theorem Spelled.of_isInfix {ls ms : List Text} (h : Spelled ls) (hms : ms <:+: ls) :
    Spelled ms := by
  obtain ⟨front, back, rfl⟩ := hms
  exact h.of_append.1.of_append.2

section

variable {book : Text} {ts : List Token}

/-- Tokens that stand side by side in a book are well spelled. -/
theorem spelled_of_isInfix (h : ts <:+: (TokenStream.ofText book).ahead) :
    Spelled (ts.map (·.lexeme)) := by
  have hall : Spelled ((TokenStream.ofText book).ahead.map (·.lexeme)) := by
    rw [TokenStream.ofText, Cursor.map_lexeme_stream]
    exact spelled_lexemes (noNul_untilNul book)
  exact hall.of_isInfix (h.map _)

/-- A token of a book is told by its lexeme. -/
theorem map_bare_of_isInfix (h : ts <:+: (TokenStream.ofText book).ahead) :
    ts.map Token.bare = (ts.map (·.lexeme)).map Token.ofLexeme := by
  rw [List.map_map]
  refine List.map_congr_left fun t ht => ?_
  simp only [Token.bare, Function.comp_apply, Token.ofLexeme,
    Cursor.kind_of_mem_stream (h.subset ht)]

end

/-! ## Scanning them again -/

/-- Scanning a text without NUL bytes gives its lexemes and the end of the text. -/
theorem map_bare_scan {text : Text} (h : (0 : UInt8) ∉ text) :
    (Token.scan text).map Token.bare =
      (lexemes text).map Token.ofLexeme ++ [Token.ofLexeme []] := by
  have hrest : text.untilNul = text := untilNul_eq_self fun b hb hz => h (hz ▸ hb)
  rw [Token.scan, TokenStream.ofText, TokenStream.toList, List.map_append, List.map_singleton,
    Cursor.map_bare_stream, Cursor.bare_finish_stream, Cursor.start, hrest]

/-- Joining loses nothing: the tokens of a book, or some of them that stand side by
side, are joined to a text that is scanned as the same kinds, numbers and lexemes in
the same order, and the end of the text. -/
theorem scan_join (book : Text) :
    let tokens := (TokenStream.ofText book).ahead
    (Token.scan (Token.join tokens)).map Token.bare =
      tokens.map Token.bare ++ [Token.ofLexeme []] ∧
    ∀ part, part <:+: tokens →
      (Token.scan (Token.join part)).map Token.bare =
        part.map Token.bare ++ [Token.ofLexeme []] := by
  intro tokens
  have hpart (part : List Token) (h : part <:+: tokens) :
      (Token.scan (Token.join part)).map Token.bare =
        part.map Token.bare ++ [Token.ofLexeme []] := by
    have hspelled := spelled_of_isInfix h
    have hjoined : Token.join part = spaced (part.map (·.lexeme)) :=
      Token.join_eq_spaced fun t ht => hspelled.ne_nil_of_mem (List.mem_map_of_mem ht)
    rw [hjoined, map_bare_scan hspelled.noNul_spaced, lexemes_spaced hspelled,
      map_bare_of_isInfix h]
  exact ⟨hpart tokens List.infix_rfl, hpart⟩

/-- A number with leading zeros, a full stop, a gap with blanks in it and a number
that is too large, joined from the middle of a book. -/
theorem scan_join_dessert :
    let book : Text := "Serves 007.\n \n\r\n9223372036854775808 crème"
    let part := ((TokenStream.ofText book).ahead.drop 1).take 4
    Token.join part = Text.ofString "007 . \n \n\r\n 9223372036854775808" ∧
      (Token.scan (Token.join part)).map Token.bare =
        [{ kind := .number 7, lexeme := "007" }, { kind := .period, lexeme := "." },
          { kind := .blankLine, lexeme := "\n \n\r\n" },
          { kind := .unexpected, lexeme := "9223372036854775808" },
          { kind := .finish, lexeme := [] }] := by
  intro book part
  have hpart : part <:+: (TokenStream.ofText book).ahead :=
    (List.take_prefix ..).isInfix.trans (List.drop_suffix ..).isInfix
  refine ⟨by decide +kernel, ?_⟩
  rw [(scan_join book).2 part hpart]
  decide +kernel

end Cookbook
