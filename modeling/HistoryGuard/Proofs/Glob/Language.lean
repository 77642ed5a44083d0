import Mathlib.Computability.Language
import HistoryGuard.Proofs.Gate.Editable

/-! # The language of a pattern

The names that a pattern stands for form a language: the product of the languages of its tokens. It
obeys a law for each kind of pattern of one character, and a law for two patterns one after the
other. Patterns without an opening bracket have no other reading that obeys these laws.
-/

namespace HistoryGuard

namespace Glob

/-- A star stands for any text, and any other token for the one character that it accepts. -/
def Token.language : Token → Language Char
  | star => ⊤
  | t => {s | ∃ c, s = [c] ∧ t.accepts c = true}

def language (pattern : List Char) : Language Char := ((tokens pattern).map Token.language).prod

section Tokens

variable {t : Token} {ts : List Token} {s : List Char}

theorem Token.mem_language_star : s ∈ star.language := Set.mem_univ s

theorem Token.mem_language (h : t ≠ .star) :
    s ∈ t.language ↔ ∃ c, s = [c] ∧ t.accepts c = true := by
  cases t with
  | star => exact absurd rfl h
  | _ => exact Iff.rfl

theorem Matches.star_append (h : Matches ts s) (a : List Char) :
    Matches (.star :: ts) (a ++ s) := by
  induction a with
  | nil => exact .starEnd h
  | cons c a ih => exact .starStep ih

theorem mem_language_of_matches (h : Matches ts s) : s ∈ (ts.map Token.language).prod := by
  induction h with
  | nil => simp
  | @one t ts c cs accepts _ ih =>
    have single : t ≠ .star := by
      rintro rfl
      simp [Token.accepts] at accepts
    rw [List.map_cons, List.prod_cons]
    exact Language.append_mem_mul (a := [c]) ((Token.mem_language single).mpr ⟨c, rfl, accepts⟩) ih
  | starEnd _ ih =>
    rw [List.map_cons, List.prod_cons]
    exact Language.append_mem_mul (a := []) Token.mem_language_star ih
  | @starStep ts c cs _ ih =>
    rw [List.map_cons, List.prod_cons, Language.mem_mul] at ih ⊢
    obtain ⟨a, _, b, hb, rfl⟩ := ih
    exact ⟨c :: a, Token.mem_language_star, b, hb, rfl⟩

theorem matches_of_mem_language (h : s ∈ (ts.map Token.language).prod) : Matches ts s := by
  induction ts generalizing s with
  | nil =>
    obtain rfl : s = [] := by simpa using h
    exact .nil
  | cons t ts ih =>
    rw [List.map_cons, List.prod_cons, Language.mem_mul] at h
    obtain ⟨a, ha, b, hb, rfl⟩ := h
    by_cases star : t = .star
    · subst star
      exact (ih hb).star_append a
    · obtain ⟨c, rfl, accepts⟩ := (Token.mem_language star).mp ha
      exact .one accepts (ih hb)

/-- Whether a name matches is whether it is in the language. -/
theorem matchName_iff {pattern name : String} :
    matchName pattern name = true ↔ name.toList ∈ language pattern.toList :=
  matchTokens_iff.trans ⟨mem_language_of_matches, matches_of_mem_language⟩

-- the first place of the letters after the star is no place to stop at
example : matchName "*ab?" "abcabd" = true ∧ matchName "*ab?" "abcab" = false := by decide

end Tokens

section Patterns

/-- What comes after a pattern without an opening bracket is read by itself. -/
theorem tokens_append {p : List Char} (q : List Char) (closed : '[' ∉ p) :
    tokens (p ++ q) = tokens p ++ tokens q := by
  induction p with
  | nil => rfl
  | cons c p ih =>
    obtain ⟨plain, rest⟩ : '[' ≠ c ∧ '[' ∉ p := by simpa using closed
    unfold tokens at ih ⊢
    rw [List.cons_append, tokensAfter, tokensAfter, ih rest]
    simp only [if_neg (Ne.symm plain)]
    split_ifs <;> rfl

theorem language_of_token {pattern : List Char} {t : Token} (h : tokens pattern = [t]) :
    language pattern = t.language := by
  rw [language, h, List.map_singleton, List.prod_singleton]

theorem tokens_literal {c : Char} (literal : c ∉ ['*', '?', '[']) : tokens [c] = [.literal c] := by
  simp only [List.mem_cons, List.not_mem_nil, or_false, not_or] at literal
  simp [tokens, tokensAfter, literal]

end Patterns

/-- The laws of patterns: what the patterns of one character stand for, and what two patterns stand
for one after the other. A bracket may only be opened in the second. -/
structure Lawful (lang : List Char → Language Char) : Prop where
  empty : lang [] = 1
  literal : ∀ c ∉ ['*', '?', '['], lang [c] = {[c]}
  any : lang ['?'] = {s | s.length = 1}
  star : lang ['*'] = ⊤
  append : ∀ p q, '[' ∉ p → lang (p ++ q) = lang p * lang q

theorem lawful_language : Lawful language where
  empty := rfl
  literal c literal := by
    ext s
    rw [language_of_token (tokens_literal literal), Token.mem_language (by simp)]
    simp only [Token.accepts, beq_iff_eq, exists_eq_right]
    rfl
  any := by
    ext s
    rw [language_of_token (t := .any) rfl, Token.mem_language (by simp)]
    simp only [Token.accepts, and_true]
    exact List.length_eq_one_iff.symm
  star := language_of_token (t := .star) rfl
  append p q closed := by
    rw [language, tokens_append q closed, List.map_append, List.prod_append, language, language]

theorem Lawful.eq {lang lang' : List Char → Language Char} (h : Lawful lang) (h' : Lawful lang')
    {p : List Char} (closed : '[' ∉ p) : lang p = lang' p := by
  induction p with
  | nil => rw [h.empty, h'.empty]
  | cons c p ih =>
    obtain ⟨plain, rest⟩ : '[' ≠ c ∧ '[' ∉ p := by simpa using closed
    have single : lang [c] = lang' [c] := by
      by_cases special : c ∈ ['*', '?', '[']
      · simp only [List.mem_cons, List.not_mem_nil, or_false, Ne.symm plain] at special
        rcases special with rfl | rfl
        · rw [h.star, h'.star]
        · rw [h.any, h'.any]
      · rw [h.literal c special, h'.literal c special]
    have first : '[' ∉ [c] := by simpa using plain
    calc lang (c :: p)
      _ = lang [c] * lang p := h.append [c] p first
      _ = lang' [c] * lang' p := by rw [single, ih rest]
      _ = lang' (c :: p) := (h'.append [c] p first).symm

end Glob

/-- A name is covered exactly if the protection is on and a pattern stands for the whole of it. What
patterns stand for obeys the laws, and for patterns without an opening bracket only this does. -/
theorem Protection.covers_language (p : Protection) :
    (∀ name, p.covers name = true ↔
      p.enabled = true ∧ ∃ pattern ∈ p.patterns, name.toList ∈ Glob.language pattern.toList) ∧
    Glob.Lawful Glob.language ∧
    ∀ lang, Glob.Lawful lang → ∀ pattern, '[' ∉ pattern → lang pattern = Glob.language pattern := by
  refine ⟨fun name => ?_, Glob.lawful_language, fun lang lawful pattern closed => ?_⟩
  · simp only [covers_iff, Protects, Glob.matchName_iff]
  · exact lawful.eq Glob.lawful_language closed

end HistoryGuard
